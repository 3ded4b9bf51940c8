import Transclude.Proofs.Confinement
import Transclude.Proofs.Recency

/-!
# The paths that a cache touches

A cache checks a path before it reads or writes, but not one that it knows, nor the numbered path that is written to
if a file may not be written over. So each path that a cache touches is allowed, or it is a numbered path next to an
allowed one (`touched_allowed_or_numbered`).
-/

namespace Transclude.Cache

open List Action Path

variable {c : Cache} {d d' : Disk} {s : State} {path text : String} {folder p : Path} {allowed : List String}
  {overwrites : Bool} {P : String → Prop} {a : Action}

/-! ## What an action touches -/

def fetches (c : Cache) (d : Disk) (path : String) : Bool :=
  match c.validate d path with
  | .ok [] => decide (c.presence path ≠ .loaded)
  | _ => false

def Action.reads (s : State) : Action → List String
  | .ask (.read path) => if s.1.fetches s.2 path then [path] else []
  | .ask _ => []
  | .write _ _ => []

def Action.writes (s : State) : Action → List String
  | .ask _ => []
  | .write path text =>
    match s.1.write s.2 path text with
    | .ok (_, reply) => reply.value.toList
    | .error _ => []

def Action.lists (s : State) : Action → List String
  | .ask (.find pattern) => (s.1.find s.2 pattern).1
  | .ask _ => []
  | .write _ _ => []

def Action.touched (s : State) (a : Action) : List String :=
  a.reads s ++ a.writes s ++ a.lists s ++ (a.after s).1.entries.map (·.1)

theorem fetches_iff : c.fetches d path = true ↔ c.validate d path = .ok [] ∧ c.presence path ≠ .loaded := by
  rw [fetches]
  split
  · rename_i hvalid
    simp [hvalid]
  · rename_i hvalid
    simpa using fun h => absurd h hvalid

theorem fetches_of_mem_reads (h : path ∈ a.reads s) : s.1.fetches s.2 path = true := by
  unfold reads at h
  split at h
  · split_ifs at h with hfetches
    · exact mem_singleton.1 h ▸ hfetches
    · cases h
  · cases h
  · cases h

theorem get_congr_of_reads (hvalid : c.validate d' path = c.validate d path)
    (htext : ∀ p ∈ (ask (.read path)).reads (c, d),
      d'.text (ofText p).text = d.text (ofText p).text) : c.get d' path = c.get d path := by
  by_cases hload : ∃ text, c.entries.lookup path = some (some text)
  · obtain ⟨text, hl⟩ := hload
    rw [get, get, hl]
  · have hl := not_exists.1 hload
    rw [get_of_lookup_ne hl, get_of_lookup_ne hl, hvalid]
    cases hv : c.validate d path with
    | error crash =>
      show Except.error crash = Except.error crash
      rfl
    | ok errors =>
      rw [Except.ok_bind, Except.ok_bind]
      cases errors with
      | cons e errors => rw [isEmpty_cons, if_neg Bool.false_ne_true, if_neg Bool.false_ne_true]
      | nil =>
        have hfetches : c.fetches d path = true := fetches_iff.2 ⟨hv, fun h => hload (lookup_of_presence h)⟩
        have hread : path ∈ (ask (.read path)).reads (c, d) := by
          rw [reads, if_pos hfetches]
          exact mem_singleton_self path
        rw [htext path hread]

theorem entry?_after {place : List String} (h : ∀ p ∈ a.writes s, s.2.locate (ofText p).text ≠ .ok place) :
    Disk.entry? (a.after s).2 place = Disk.entry? s.2 place := by
  cases a with
  | ask request => rfl
  | write path text =>
    rw [Action.after]
    rcases write_cases s.1 s.2 path text with ⟨_, he⟩ | ⟨_, he⟩ | ⟨-, d', hwrite, he⟩
    · rw [he]
    · rw [he]
    · rw [writes, he] at h
      rw [he]
      obtain ⟨place', hloc, hfree, rfl⟩ := Disk.write_ok hwrite
      have hne : place ≠ place' := fun heq => h _ (mem_singleton_self _) (heq ▸ hloc)
      rw [Disk.entry?_put s.2 (Disk.ne_nil_of_isFolderAt hfree), if_neg hne]

/-! ## Paths that are written to -/

theorem isAllowed_text (folder : Path) (allowed : List String) (path : String) :
    isAllowed folder allowed (ofText path).text = isAllowed folder allowed path := by
  rw [isAllowed, ofText_text (clean_ofText path), isAllowed]

theorem freePath_cases (d : Disk) (p : Path) (n fuel : Nat) :
    freePath d p n fuel = p ∨ ∃ k, freePath d p n fuel = numbered p k := by
  induction fuel generalizing n with
  | zero => exact .inl rfl
  | succ fuel ih =>
    rw [freePath_succ]
    split_ifs
    · exact ih (n + 1)
    · exact .inr ⟨n, rfl⟩

theorem target_cases (c : Cache) (d : Disk) (path : String) :
    c.target d path = path ∨ c.target d path = (ofText path).text ∨
      c.overwrites = false ∧ ∃ n, c.target d path = (numbered (.ofText path) n).text := by
  rw [target]
  split_ifs with hother
  · rw [Bool.and_eq_true, Bool.not_eq_true'] at hother
    refine .inr ((freePath_cases d (.ofText path) 0 (d.entries.length + 1)).imp (congrArg text) ?_)
    rintro ⟨n, hn⟩
    exact ⟨hother.2, n, congrArg text hn⟩
  · exact .inl rfl

/-! ## Histories -/

structure Keeping (P : String → Prop) (folder : Path) (allowed : List String) (overwrites : Bool) (s : State) :
    Prop where
  folder : s.2.folder = folder
  allowed : s.1.allowed = allowed
  overwrites : s.1.overwrites = overwrites
  keys : ∀ e ∈ s.1.entries, P e.1

/-- Whether the path that an action writes to is of some kind, whatever is on the disk. -/
def Action.WritesIn (P : String → Prop) (folder : Path) (allowed : List String) (overwrites : Bool) (a : Action) :
    Prop :=
  ∀ path text, a = .write path text → isAllowed folder allowed path = true →
    ∀ (c : Cache) (d : Disk), c.overwrites = overwrites → P (c.target d path)

theorem Keeping.of_validate (h : Keeping P folder allowed overwrites s)
    (hallow : ∀ path, isAllowed folder allowed path = true → P path) (hv : s.1.validate s.2 path = .ok []) :
    P path := by
  rw [validate_eq_ite] at hv
  split_ifs at hv with hl
  · obtain ⟨kept, hl⟩ := Option.isSome_iff_exists.1 hl
    exact h.keys _ (mem_of_lookup hl)
  · have hmay := (refusal?_eq_none_iff.1 (objections_eq_nil_iff.1 hv).2).1
    rw [h.folder, h.allowed] at hmay
    exact hallow path hmay

theorem Keeping.take (h : Keeping P folder allowed overwrites s) (hdir : d'.folder = folder) (hpath : P path) :
    Keeping P folder allowed overwrites ((s.1.take path text).1, d') := by
  refine ⟨hdir, h.allowed, h.overwrites, fun e he => ?_⟩
  rcases remains_take he with rfl | ⟨kept, hmem, -⟩
  · exact hpath
  · exact h.keys (e.1, kept) hmem

theorem Keeping.after (h : Keeping P folder allowed overwrites s)
    (hallow : ∀ path, isAllowed folder allowed path = true → P path) (ha : a.WritesIn P folder allowed overwrites) : Keeping P folder allowed overwrites (a.after s) := by
  rcases a.after_cases s with ⟨hafter, -⟩ | ⟨path, reply, hg, hafter, -⟩ |
    ⟨path, text, d, rfl, hmay, hwrite, hafter, -⟩
  all_goals rw [hafter]
  · exact h
  · obtain ⟨⟨entries, memory, hcache⟩, hents⟩ := Cache.get_ok hg
    refine ⟨h.folder, hcache ▸ h.allowed, hcache ▸ h.overwrites, fun e he => ?_⟩
    rcases hents e he with ⟨kept, hmem, -⟩ | ⟨_, rfl, -, -, hv⟩
    · exact h.keys (e.1, kept) hmem
    · exact h.of_validate hallow hv
  · rw [h.folder, h.allowed] at hmay
    obtain ⟨place, -, hfree, rfl⟩ := Disk.write_ok hwrite
    have hdir := (Disk.extends_put_file hfree text.toUTF8).folder
    exact h.take (hdir.trans h.folder) (ha path text rfl hmay s.1 s.2 h.overwrites)

theorem isAllowed_of_mem_find {pattern : String} (h : path ∈ (c.find d pattern).1) :
    isAllowed d.folder c.allowed path = true := by
  rw [find, partition_eq_filter_filter] at h
  exact (mem_filter.1 h).2

theorem Keeping.touched (h : Keeping P folder allowed overwrites s)
    (hallow : ∀ path, isAllowed folder allowed path = true → P path) (ha : a.WritesIn P folder allowed overwrites) : ∀ path ∈ a.touched s, P path := by
  intro path hpath
  simp only [Action.touched, mem_append] at hpath
  rcases hpath with ((hread | hwritten) | hlisted) | hkept
  · exact h.of_validate hallow (fetches_iff.1 (fetches_of_mem_reads hread)).1
  · cases a with
    | ask _ => cases hwritten
    | write asked text =>
      rw [writes] at hwritten
      rcases write_cases s.1 s.2 asked text with ⟨_, he⟩ | ⟨_, he⟩ | ⟨hmay, d', -, he⟩
      all_goals rw [he] at hwritten
      · cases hwritten
      · cases hwritten
      · obtain rfl := mem_singleton.1 hwritten
        rw [h.folder, h.allowed] at hmay
        exact ha asked text rfl hmay s.1 s.2 h.overwrites
  · cases a with
    | write _ _ => cases hlisted
    | ask request =>
      cases request with
      | find pattern =>
        have hmay := isAllowed_of_mem_find hlisted
        rw [h.folder, h.allowed] at hmay
        exact hallow path hmay
      | read _ => cases hlisted
      | validate _ => cases hlisted
      | presence _ => cases hlisted
  · obtain ⟨e, he, rfl⟩ := mem_map.1 hkept
    exact (h.after hallow ha).keys e he

theorem Keeping.foldl_after (h : Keeping P folder allowed overwrites s)
    (hallow : ∀ path, isAllowed folder allowed path = true → P path) {turns : List Turn}
    (hturns : ∀ a, .act a ∈ turns → a.WritesIn P folder allowed overwrites) :
    Keeping P folder allowed overwrites (turns.foldl Turn.after s) := by
  induction turns generalizing s with
  | nil => exact h
  | cons turn turns ih =>
    refine ih ?_ fun a ha => hturns a (mem_cons_of_mem _ ha)
    cases turn with
    | act a => exact h.after hallow (hturns a mem_cons_self)
    | change entries => exact ⟨h.folder, h.allowed, h.overwrites, h.keys⟩

theorem keeping_of_make {maxFile limit : Amount} {fresh : Cache}
    (hfresh : make maxFile limit allowed overwrites = .ok fresh) (d : Disk) :
    Keeping P d.folder allowed overwrites (fresh, d) := by
  rw [make] at hfresh
  split_ifs at hfresh
  cases hfresh
  exact ⟨rfl, rfl, rfl, by simp⟩

/-! ## Numbered neighbours -/

def AdmitsNumbered (folder : Path) (allowed : List String) : Prop :=
  ∀ path n, isAllowed folder allowed path = true → isAllowed folder allowed (numbered (.ofText path) n).text = true

theorem prefix_resolve_parent {names : List String} (h : names <+: (resolve folder p).parts)
    (hne : (resolve folder p).parts ≠ names) : names <+: (resolve folder p.parent).parts := by
  rcases eq_nil_or_concat' p.parts with hnil | ⟨above, last, hlast⟩
  · have hparent : p.parent = p := by
      obtain ⟨root, parts⟩ := p
      obtain rfl : parts = [] := hnil
      rfl
    rwa [hparent]
  · by_cases hup : last = ".."
    · have hdrop : (resolve folder p).parts = (resolve folder p.parent).parts.dropLast := by
        rw [resolve, join_parts_concat folder hlast, hup, collapse_append, collapse, collapse,
          drop_one, tail_reverse, reverse_reverse]
        rfl
      exact h.trans (hdrop ▸ dropLast_prefix _)
    · obtain ⟨rest, hrest⟩ := h
      have hrest' : rest ≠ [] := by
        rintro rfl
        exact hne (by rw [← hrest, append_nil])
      rw [resolve_parent folder hlast hup, parent, ← hrest, dropLast_append_of_ne_nil hrest']
      exact prefix_append _ _

theorem resolve_numbered (hp : p.Clean) (n : Nat) : (resolve folder (numbered p n)).parts =
      (resolve folder p.parent).parts ++ [s!"{p.stem}.{n}{p.extension}"] := by
  have hdown : ∀ name ∈ (resolve folder p.parent).parts ++ [s!"{p.stem}.{n}{p.extension}"], name ≠ ".." := by
    rw [forall_mem_append]
    exact ⟨resolve_down folder p.parent, by simpa using (isName_numbered hp n).2⟩
  rw [numbered, resolve_join folder p.parent rfl]
  exact collapse_of_forall_ne [] hdown

theorem admitsNumbered_stars (hdir : folder.Canonical) (hplain : Wildcard.isWild folder.text = false) :
    AdmitsNumbered folder ["./**"] := by
  intro path n hpath
  rw [isAllowed_stars_iff hdir hplain] at hpath ⊢
  rw [ofText_text (clean_numbered (clean_ofText path) n), resolve_numbered (clean_ofText path)]
  by_cases hroot : folder.parts = []
  · rw [hroot]
    exact nil_prefix
  · have hpre := prefix_of_slashed_prefix hdir.names (hdir.resolve (clean_ofText path)).names hpath
    have hne : (resolve folder (.ofText path)).parts ≠ folder.parts := by
      intro heq
      rw [heq] at hpath
      exact not_slashed_prefix_written hroot hpath
    obtain ⟨rest, hrest⟩ := prefix_resolve_parent hpre hne
    rw [← hrest, append_assoc]
    exact slashed_prefix_written folder.parts (by simp)

/-! ## All that is touched -/

def Turn.asked : Turn → Option String
  | .act (.write path _) => some path
  | .act (.ask _) => none
  | .change _ => none

def IsNumbered (folder : Path) (allowed asked : List String) (path : String) : Prop :=
  ∃ request ∈ asked, isAllowed folder allowed request = true ∧ ∃ n, path = (numbered (.ofText request) n).text

theorem target_allowed_or_numbered (c : Cache) (d : Disk) {asked : List String} (hmem : path ∈ asked)
    (hpath : isAllowed folder allowed path = true) :
    isAllowed folder allowed (c.target d path) = true ∨
      c.overwrites = false ∧ IsNumbered folder allowed asked (c.target d path) := by
  rcases c.target_cases d path with heq | heq | ⟨hnew, n, heq⟩
  · rw [heq]
    exact .inl hpath
  · rw [heq, isAllowed_text]
    exact .inl hpath
  · exact .inr ⟨hnew, path, hmem, hpath, n, heq⟩

/-- A path that a cache reads, writes, keeps or lists is allowed, or texts are not written over and it is a numbered
neighbour of an allowed path. If texts are written over, or if numbered neighbours are allowed, it is allowed in any
case. -/
theorem touched_allowed_or_numbered {maxFile limit : Amount} {fresh : Cache}
    (hfresh : make maxFile limit allowed overwrites = .ok fresh) (d : Disk) (turns : List Turn) (a : Action) :
    let s := turns.foldl Turn.after (fresh, d)
    let asked := (turns ++ [Turn.act a]).filterMap Turn.asked
    (∀ path ∈ a.touched s, isAllowed d.folder allowed path = true ∨
      overwrites = false ∧ IsNumbered d.folder allowed asked path) ∧
    (overwrites = true ∨ AdmitsNumbered d.folder allowed →
      ∀ path ∈ a.touched s, isAllowed d.folder allowed path = true) := by
  intro s asked
  have htouched : ∀ path ∈ a.touched s, isAllowed d.folder allowed path = true ∨
      overwrites = false ∧ IsNumbered d.folder allowed asked path := by
    have hwrites (b : Action) (hb : Turn.act b ∈ turns ++ [.act a]) :
        b.WritesIn (fun path => isAllowed d.folder allowed path = true ∨
          overwrites = false ∧ IsNumbered d.folder allowed asked path) d.folder allowed overwrites := by
      rintro request text rfl hreq c disk rfl
      exact c.target_allowed_or_numbered disk (mem_filterMap.2 ⟨_, hb, rfl⟩) hreq
    have hs := (keeping_of_make hfresh d).foldl_after (fun _ => .inl) fun b hb => hwrites b (mem_append_left _ hb)
    exact hs.touched (fun _ => .inl) (hwrites a (by simp))
  refine ⟨htouched, fun hcovered path hpath => (htouched path hpath).elim id ?_⟩
  rintro ⟨hmode, request, -, hreq, n, rfl⟩
  refine hcovered.elim (fun hover => ?_) fun hadmits => hadmits request n hreq
  cases hmode.symm.trans hover

namespace Single

def disk : Disk where
  folder := { root := "/", parts := ["p"] }
  entries := [(["p"], .folder), (["p", "a.md"], .file "abc".toUTF8)]

def fresh (allowed : List String) : Cache :=
  { maxFile := .int 10, limit := 100, allowed, overwrites := false, entries := [], memory := 0 }

def rewrite : Action := .write "a.md" "x"

end Single

open Single

/-- In a session two texts that are written to the path of a file go to allowed paths next to it. -/
theorem numbered_allowed_in_session : make (.int 10) (.int 100) ["./**"] false = .ok (fresh ["./**"]) ∧
    AdmitsNumbered disk.folder ["./**"] ∧
    rewrite.touched (rewrite.after (fresh ["./**"], disk)) =
      ["a.1.md", "a.1.md", "a.0.md"] ∧
    ∀ path ∈ ["a.1.md", "a.1.md", "a.0.md"], isAllowed disk.folder ["./**"] path = true := by
  have hfresh : make (.int 10) (.int 100) ["./**"] false = .ok (fresh ["./**"]) := rfl
  have hnames : ∀ name ∈ disk.folder.parts, Path.IsName name := fun name hname =>
    mem_singleton.1 hname ▸ ⟨by decide, by decide⟩
  have hdir : disk.folder.Canonical := ⟨rfl, hnames, by decide⟩
  have hadmits := admitsNumbered_stars hdir (by decide)
  have htouched : rewrite.touched (rewrite.after (fresh ["./**"], disk)) =
      ["a.1.md", "a.1.md", "a.0.md"] := by decide
  refine ⟨hfresh, hadmits, htouched, ?_⟩
  have hlast := (touched_allowed_or_numbered hfresh disk [.act rewrite] rewrite).2 (.inr hadmits)
  rwa [foldl_cons, foldl_nil, Turn.after, htouched] at hlast

/-- If only the file itself is allowed, a text that is written to its path goes to a forbidden one, which is kept and
read. -/
theorem touches_forbidden_neighbour : make (.int 10) (.int 100) ["a.md"] false = .ok (fresh ["a.md"]) ∧
    rewrite.writes (fresh ["a.md"], disk) = ["a.0.md"] ∧
    rewrite.touched (fresh ["a.md"], disk) = ["a.0.md", "a.0.md"] ∧
    (Action.ask (.read "a.0.md")).used (rewrite.after (fresh ["a.md"], disk)) = some "a.0.md" ∧
    isAllowed disk.folder ["a.md"] "a.0.md" = false := by
  refine ⟨rfl, by decide, by decide, by decide, by decide⟩

end Transclude.Cache
