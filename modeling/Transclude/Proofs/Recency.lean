import Transclude.Proofs.Budget

/-!
# The order of use

The paths of a cache stand in the order of their last use, those with a text first (`Recent`), and texts are let go
one after another, each time the oldest (`EvictsOldest`). Both are so after any history
(`evicts_least_recently_used`).
-/

namespace Transclude.Cache

open List Action

variable {c room : Cache} {d : Disk} {s : State} {path text : String} {log paths : List String}

/-! ## Uses -/

inductive Turn where
  | act (a : Action)
  | change (entries : List (List String × Disk.Entry))

def Turn.after (s : State) : Turn → State
  | .act a => a.after s
  | .change entries => (s.1, { s.2 with entries })

def Action.used (s : State) : Action → Option String
  | .ask (.read path) =>
    match s.1.get s.2 path with
    | .ok reply => reply.value.map fun _ => path
    | .error _ => none
  | .ask _ => none
  | .write path text =>
    match s.1.write s.2 path text with
    | .ok (_, reply) => reply.value
    | .error _ => none

def Action.events (s : State) : Action → List Event
  | .ask (.read path) =>
    match s.1.get s.2 path with
    | .ok reply => reply.events
    | .error _ => []
  | .ask _ => []
  | .write path text =>
    match s.1.write s.2 path text with
    | .ok (_, reply) => reply.events
    | .error _ => []

def Event.evicted? : Event → Option String
  | .hit _ => none
  | .miss _ => none
  | .eviction path => some path

def Action.evicted (s : State) (a : Action) : List String := (a.events s).filterMap Event.evicted?

def Turn.used (s : State) : Turn → Option String
  | .act a => a.used s
  | .change _ => none

def uses (s : State) : List Turn → List String
  | [] => []
  | turn :: rest => uses (turn.after s) rest ++ (turn.used s).toList

/-! ## The order -/

/-- Whether the paths of a cache stand in the order of their last use, those with a text before the others. -/
structure Recent (log : List String) (c : Cache) : Prop where
  order : (c.entries.map (·.1)).Pairwise fun p q => log.idxOf p < log.idxOf q
  mem_iff : ∀ path, path ∈ c.entries.map (·.1) ↔ path ∈ log
  loaded_first : c.entries.Pairwise fun e f => f.2.isSome = true → e.2.isSome = true

def Oldest (log : List String) (c : Cache) (path : String) : Prop :=
  c.presence path = .loaded ∧ ∀ other, c.presence other = .loaded → log.idxOf other ≤ log.idxOf path

def letGo (c : Cache) (path : String) : Cache :=
  { c with
    entries := c.entries.map fun e => if e.1 == path then (path, none) else e
    memory := c.memory - c.keptOf path }

inductive EvictsOldest (log : List String) : Cache → List String → Cache → Prop where
  | done (c : Cache) : EvictsOldest log c [] c
  | next {c c' : Cache} {path : String} {paths : List String} (oldest : c.Oldest log path)
      (rest : EvictsOldest log (c.letGo path) paths c') : EvictsOldest log c (path :: paths) c'

theorem nodup_of_order (h : paths.Pairwise fun p q => log.idxOf p < log.idxOf q) : paths.Nodup :=
  h.imp fun hlt heq => by simp [heq] at hlt

theorem lookup_of_presence (h : c.presence path = .loaded) : ∃ text, c.entries.lookup path = some (some text) := by
  rw [presence] at h
  split at h
  · cases h
  · cases h
  · rename_i text hl
    exact ⟨text, hl⟩

theorem presence_eq_loaded_iff (hnodup : (c.entries.map (·.1)).Nodup) :
    c.presence path = .loaded ↔ ∃ text, (path, some text) ∈ c.entries := by
  constructor
  · intro h
    obtain ⟨text, hl⟩ := lookup_of_presence h
    exact ⟨text, mem_of_lookup hl⟩
  · rintro ⟨text, hmem⟩
    rw [presence, lookup_eq_some_of_mem hnodup hmem]

theorem map_fst_letGo (c : Cache) (path : String) : (c.letGo path).entries.map (·.1) = c.entries.map (·.1) := by
  rw [letGo, map_map]
  refine map_congr_left fun e _ => ?_
  by_cases he : e.1 = path <;> simp [he]

theorem Recent.letGo (h : Recent log c) (hold : c.Oldest log path) : Recent log (c.letGo path) where
  order := by
    rw [map_fst_letGo]
    exact h.order
  mem_iff := by
    rw [map_fst_letGo]
    exact h.mem_iff
  loaded_first := by
    have horder := pairwise_map.1 h.order
    refine pairwise_map.2 ((horder.and h.loaded_first).imp_of_mem fun {e f} _ hf hef hload => ?_)
    by_cases hfp : f.1 = path
    · simp [hfp] at hload
    · simp only [beq_iff_eq, hfp, if_false] at hload
      have hep : e.1 ≠ path := by
        rintro rfl
        obtain ⟨text, htext⟩ := Option.isSome_iff_exists.1 hload
        have hkept : c.presence f.1 = .loaded := (presence_eq_loaded_iff (nodup_of_order h.order)).2 ⟨text, htext ▸ hf⟩
        have := hold.2 f.1 hkept
        omega
      simpa [hep] using hef.2 hload

theorem EvictsOldest.recent (h : EvictsOldest log c paths room) (hc : Recent log c) : Recent log room := by
  induction h with
  | done => exact hc
  | next hold _ ih => exact ih (hc.letGo hold)

theorem Recent.toFront (h : Recent log c) (path text : String) : Recent (path :: log) (c.toFront path text) where
  order := by
    have hkeys : (c.toFront path text).entries.map (·.1) = path :: (c.entries.map (·.1)).filter (· != path) := by
      rw [filter_map]
      rfl
    rw [hkeys]
    refine pairwise_cons.2 ⟨fun q hq => ?_, (h.order.filter _).imp_of_mem fun {p q} hp hq hpq => ?_⟩
    · have hne : path ≠ q := Ne.symm (bne_iff_ne.1 (mem_filter.1 hq).2)
      rw [idxOf_cons_self, idxOf_cons_ne _ hne]
      exact Nat.succ_pos _
    · have hp : path ≠ p := Ne.symm (bne_iff_ne.1 (mem_filter.1 hp).2)
      have hq : path ≠ q := Ne.symm (bne_iff_ne.1 (mem_filter.1 hq).2)
      rw [idxOf_cons_ne _ hp, idxOf_cons_ne _ hq]
      omega
  mem_iff q := by
    have hq := h.mem_iff q
    by_cases hne : q = path
    · simp [Cache.toFront, hne]
    · rw [mem_cons, ← hq]
      simp only [Cache.toFront, map_cons, mem_cons, hne, false_or, mem_map, mem_filter]
      constructor
      · rintro ⟨e, ⟨he, -⟩, rfl⟩
        exact ⟨e, he, rfl⟩
      · rintro ⟨e, he, rfl⟩
        exact ⟨e, ⟨he, bne_iff_ne.2 hne⟩, rfl⟩
  loaded_first := pairwise_cons.2 ⟨fun _ _ _ => rfl, h.loaded_first.filter _⟩

/-! ## Letting go -/

theorem keptOf_of_mem (hnodup : (c.entries.map (·.1)).Nodup) (hmem : (path, some text) ∈ c.entries) :
    c.keptOf path = text.length := by
  rw [keptOf, lookup_eq_some_of_mem hnodup hmem]

theorem entries_letGo {front back : List (String × Option String)} (hnodup : (c.entries.map (·.1)).Nodup)
    (hents : c.entries = front ++ (path, some text) :: back) :
    (c.letGo path).entries = front ++ (path, none) :: back := by
  have hothers : ∀ part : List (String × Option String), path ∉ part.map (·.1) →
      (part.map fun e => if e.1 == path then (path, none) else e) = part := by
    intro part hpart
    conv_rhs => rw [← map_id part]
    refine map_congr_left fun e he => ?_
    rw [if_neg fun hkey => hpart (mem_map.2 ⟨e, he, beq_iff_eq.1 hkey⟩), id]
  rw [hents, map_append] at hnodup
  have hsplit := nodup_append.1 hnodup
  rw [letGo, hents, map_append, map_cons, hothers front, hothers back]
  · simp
  · exact (nodup_cons.1 hsplit.2.1).1
  · exact fun hmem => hsplit.2.2 path hmem path mem_cons_self rfl

theorem oldest_of_last {front back : List (String × Option String)}
    (horder : (c.entries.map (·.1)).Pairwise fun p q => log.idxOf p < log.idxOf q)
    (hents : c.entries = front ++ (path, some text) :: back) (hback : ∀ e ∈ back, e.2 = none) :
    c.Oldest log path := by
  have hnodup := nodup_of_order horder
  refine ⟨(presence_eq_loaded_iff hnodup).2 ⟨text, by simp [hents]⟩, fun other hother => ?_⟩
  obtain ⟨kept, hmem⟩ := (presence_eq_loaded_iff hnodup).1 hother
  rw [hents, mem_append, mem_cons] at hmem
  rcases hmem with hfront | hlast | hback'
  · rw [hents, map_append, pairwise_append] at horder
    exact Nat.le_of_lt (horder.2.2 other (mem_map.2 ⟨_, hfront, rfl⟩) path (by simp))
  · cases hlast
    exact Nat.le_refl _
  · cases hback _ hback'

theorem evictsOldest_unload {needed memory : Nat} {past rest left : List (String × Option String)}
    {events : List Event} (hunload : unload c.limit needed c.memory rest = (left, memory, events))
    (horder : (c.entries.map (·.1)).Pairwise fun p q => log.idxOf p < log.idxOf q)
    (hents : c.entries = rest.reverse ++ past) (hpast : ∀ e ∈ past, e.2 = none) :
    EvictsOldest log c (events.filterMap Event.evicted?) { c with entries := left.reverse ++ past, memory } := by
  induction rest generalizing c past left memory events with
  | nil =>
    cases hunload
    rw [← hents]
    exact .done c
  | cons e rest ih =>
    obtain ⟨path, kept⟩ := e
    rw [reverse_cons, append_assoc, singleton_append] at hents
    unfold unload at hunload
    split at hunload
    · cases kept with
      | none =>
        cases hunload
        have hnext := ih rfl horder hents (forall_mem_cons.2 ⟨rfl, hpast⟩)
        rwa [reverse_cons, append_assoc]
      | some text =>
        cases hunload
        have hnodup := nodup_of_order horder
        have hmem : (path, some text) ∈ c.entries := by simp [hents]
        have hmemory : (c.letGo path).memory = c.memory - text.length := by rw [letGo, keptOf_of_mem hnodup hmem]
        have hnext := ih (c := c.letGo path) rfl (by rwa [map_fst_letGo]) (entries_letGo hnodup hents)
          (forall_mem_cons.2 ⟨rfl, hpast⟩)
        rw [hmemory] at hnext
        rw [reverse_cons, append_assoc]
        exact .next (oldest_of_last horder hents hpast) hnext
    · cases hunload
      rw [reverse_cons, append_assoc, singleton_append, ← hents]
      exact .done c

theorem Recent.makeRoom (h : Recent log c) (needed : Nat) :
    EvictsOldest log c ((c.makeRoom needed).2.filterMap Event.evicted?) (c.makeRoom needed).1 := by
  have hunload : unload c.limit needed c.memory c.entries.reverse =
      ((c.makeRoom needed).1.entries.reverse, (c.makeRoom needed).1.memory, (c.makeRoom needed).2) := by
    rw [Cache.makeRoom, reverse_reverse]
  have hpast : ∀ e ∈ ([] : List (String × Option String)), e.2 = none := by simp
  have hrun := evictsOldest_unload hunload h.order (by rw [reverse_reverse, append_nil]) hpast
  rwa [append_nil, reverse_reverse] at hrun

/-! ## Actions -/

/-- What an action does: it fails and changes nothing in the cache, or its file comes to the front after the oldest
texts were let go. -/
theorem Recent.act (h : Recent log s.1) (a : Action) : (a.used s = none ∧ (a.after s).1 = s.1 ∧ a.evicted s = []) ∨
    ∃ path text room, a.used s = some path ∧ EvictsOldest log s.1 (a.evicted s) room ∧
      (a.after s).1.entries = (room.toFront path text).entries := by
  cases a with
  | ask request =>
    cases request with
    | read path =>
      rcases get_cases s.1 s.2 path with ⟨text, _, he⟩ | ⟨_, _, he⟩ | ⟨_, _, _, he⟩ | ⟨_, ⟨_, _, he⟩ | ⟨text, _, he⟩⟩
      · refine .inr ⟨path, text, s.1, ?_, ?_, ?_⟩
        · rw [used, he]
          rfl
        · rw [evicted, events, he]
          exact .done s.1
        · rw [Action.after, Request.after, he]
      iterate 3 exact .inl (by simp [Action.used, Action.evicted, Action.events, Action.after, Request.after, he])
      · refine .inr ⟨path, text, (s.1.makeRoom text.length).1, ?_, ?_, ?_⟩
        · rw [Action.used, he]
          rfl
        · have hmiss : [Event.miss path].filterMap Event.evicted? = [] := rfl
          rw [evicted, events, he, filterMap_append, hmiss, append_nil]
          exact h.makeRoom text.length
        · rw [Action.after, Request.after, he]
          rfl
    | validate _ => exact .inl ⟨rfl, rfl, rfl⟩
    | find _ => exact .inl ⟨rfl, rfl, rfl⟩
    | presence _ => exact .inl ⟨rfl, rfl, rfl⟩
  | write path text =>
    rcases write_cases s.1 s.2 path text with ⟨_, he⟩ | ⟨_, he⟩ | ⟨-, d', -, he⟩
    iterate 2 exact .inl (by simp [Action.used, Action.evicted, Action.events, Action.after, he])
    · refine .inr ⟨s.1.target s.2 path, text, (s.1.makeRoom text.length).1, ?_, ?_, ?_⟩
      · rw [Action.used, he]
      · rw [evicted, events, he]
        exact h.makeRoom text.length
      · rw [Action.after, he]
        rfl

theorem Recent.of_entries {c' : Cache} (h : Recent log c) (hents : c'.entries = c.entries) : Recent log c' :=
  ⟨hents ▸ h.order, hents ▸ h.mem_iff, hents ▸ h.loaded_first⟩

theorem Recent.after (h : Recent log s.1) (turn : Turn) : Recent ((turn.used s).toList ++ log) (turn.after s).1 := by
  cases turn with
  | change entries => exact h
  | act a =>
    rw [Turn.used, Turn.after]
    rcases h.act a with ⟨hused, hafter, -⟩ | ⟨path, text, room, hused, hevicts, hents⟩
    · rw [hused, hafter]
      exact h
    · rw [hused]
      exact ((hevicts.recent h).toFront path text).of_entries hents

theorem Recent.foldl_after (h : Recent log s.1) (turns : List Turn) :
    Recent (uses s turns ++ log) (turns.foldl Turn.after s).1 := by
  induction turns generalizing s log with
  | nil => exact h
  | cons turn turns ih =>
    rw [uses, append_assoc]
    exact ih (h.after turn)

theorem recent_of_make {maxFile limit : Amount} {allowed : List String} {overwrites : Bool} {fresh : Cache}
    (hfresh : make maxFile limit allowed overwrites = .ok fresh) : Recent [] fresh := by
  rw [make] at hfresh
  split_ifs at hfresh
  cases hfresh
  exact ⟨List.Pairwise.nil, fun _ => Iff.rfl, List.Pairwise.nil⟩

/-! ## Histories -/

/-- After any history the paths of a cache stand in the order of their last use, those with a text first. The next
action fails and leaves the cache as it is, or lets texts go, each time the oldest, and brings its file to the front.
-/
theorem evicts_least_recently_used {maxFile limit : Amount} {allowed : List String} {overwrites : Bool}
    {fresh : Cache} (hfresh : make maxFile limit allowed overwrites = .ok fresh) (d : Disk) (turns : List Turn) :
    let s := turns.foldl Turn.after (fresh, d)
    let log := uses (fresh, d) turns
    Recent log s.1 ∧ ∀ a : Action, (a.used s = none → (a.after s).1 = s.1 ∧ a.evicted s = []) ∧
      ∀ path, a.used s = some path → ∃ text room, EvictsOldest log s.1 (a.evicted s) room ∧
        (a.after s).1.entries = (path, some text) :: room.entries.filter (·.1 != path) := by
  intro s log
  have hs : Recent log s.1 := by
    have hrun := Recent.foldl_after (s := (fresh, d)) (recent_of_make hfresh) turns
    rwa [append_nil] at hrun
  refine ⟨hs, fun a => ?_⟩
  rcases hs.act a with ⟨hused, hafter⟩ | ⟨path, text, room, hused, hevicts, hents⟩
  · refine ⟨fun _ => hafter, fun path hpath => ?_⟩
    cases hused.symm.trans hpath
  · refine ⟨fun hnone => ?_, fun path' hpath => ?_⟩
    · cases hused.symm.trans hnone
    · cases hused.symm.trans hpath
      exact ⟨text, room, hevicts, hents⟩

namespace Crowded

/-- Three files are read, the first one is removed by others and read again, and one that is not there is asked for.
-/
def turns : List Turn :=
  [.act (.ask (.read "a.md")), .act (.ask (.read "b.md")), .act (.ask (.read "c.md")),
    .change (disk.entries.filter (·.1 != ["p", "a.md"])), .act (.ask (.read "a.md")), .act (.ask (.read "e.md"))]

def state : State := turns.foldl Turn.after (fresh 5 6, disk)

end Crowded

open Crowded

/-- The file that was read again is let go last, although it was the first one to be read. -/
theorem evicts_by_last_use : make (.int 5) (.int 6) ["."] false = .ok (fresh 5 6) ∧
    uses (fresh 5 6, disk) turns = ["a.md", "c.md", "b.md", "a.md"] ∧
    (Action.write "f.md" "vwxyz").evicted state = ["b.md", "c.md", "a.md"] ∧
    ∃ text room, EvictsOldest ["a.md", "c.md", "b.md", "a.md"] state.1 ["b.md", "c.md", "a.md"] room ∧
      ((Action.write "f.md" "vwxyz").after state).1.entries =
        ("f.md", some text) :: room.entries.filter (·.1 != "f.md") := by
  have hfresh : make (.int 5) (.int 6) ["."] false = .ok (fresh 5 6) := rfl
  have huses : uses (fresh 5 6, disk) turns = ["a.md", "c.md", "b.md", "a.md"] := by
    decide
  have hevicted : (Action.write "f.md" "vwxyz").evicted state = ["b.md", "c.md", "a.md"] := by decide
  have hused : (Action.write "f.md" "vwxyz").used state = some "f.md" := by decide
  refine ⟨hfresh, huses, hevicted, ?_⟩
  have hlast := ((evicts_least_recently_used hfresh disk turns).2 (.write "f.md" "vwxyz")).2
    "f.md" hused
  rwa [huses, show turns.foldl Turn.after _ = state from rfl, hevicted] at hlast

end Transclude.Cache
