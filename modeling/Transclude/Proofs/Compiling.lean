import Transclude.Proofs.Growth

/-!
# What compiling does

Compiling reads the sources of the nodes of a plan, tells how far it has come, shows errors and asks what to do. On
desks on which each of these comes to the same (`Attends`, `Advances`), so does compiling. Only if a source cannot be
read is a document missing.
-/

namespace Transclude

open Work Table

def Node.Trusts (trusted : String → Prop) (n : Node) : Prop :=
  ∀ m ∈ n.walk, m.directive.source = "" ∧ m.document = none ∨ trusted m.directive.source

theorem Node.mem_walk_of_mem_walk_child {n c m : Node} (hc : c ∈ n.children) (hm : m ∈ c.walk) : m ∈ n.walk := by
  rw [walk_eq]
  exact List.mem_cons_of_mem _ (List.mem_flatMap.2 ⟨c, hc, hm⟩)

/-! ## What plugins crash with -/

structure Spares {α : Type} (crash : Crash) (x : Except Crash α) : Prop where
  ne : x ≠ .error crash

namespace Spares

variable {α β : Type} {crash c : Crash}

theorem ok (a : α) : Spares crash (.ok a) := ⟨fun h => by cases h⟩

theorem error (h : c ≠ crash) : Spares crash (.error c : Except Crash α) := ⟨fun hc => h (Except.error.inj hc)⟩

theorem bind {x : Except Crash α} {f : α → Except Crash β} (hx : Spares crash x)
    (hf : ∀ a, Spares crash (f a)) : Spares crash (x >>= f) := by
  cases x with
  | ok a => exact hf a
  | error c => exact error fun h => hx.ne (h ▸ rfl)

theorem mapError {ε : Type} {x : Except ε α} {f : ε → Crash} (hf : ∀ e, f e ≠ crash) : Spares crash (x.mapError f) := by
  cases x with
  | ok a => exact ok a
  | error e => exact error (hf e)

theorem filterM {f : α → Except Crash Bool} (hf : ∀ a, Spares crash (f a)) (l : List α) :
    Spares crash (l.filterM f) := by
  have haux : ∀ (l kept : List α), Spares crash (l.filterAuxM f kept) := by
    intro l
    induction l with
    | nil => exact fun kept => ok kept
    | cons a l ih => exact fun kept => (hf a).bind fun b => by cases b <;> exact ih _
  exact (haux l []).bind fun kept => ok kept.reverse

end Spares

namespace Compile

variable {actions : List (Nat × Action)} {rest : List Char} {d : Directive} {root n : Node} {c : Char}

def uncached : Crash := .broken "source file should be cached after planning"

theorem broken_ne_uncached {promise : String} (h : promise.toList = c :: rest) (hc : c ≠ 's') : Crash.broken promise ≠ uncached := by
  intro he
  rw [Crash.broken.inj he] at h
  exact hc (List.cons.inj h).1.symm

theorem toList_append_cons {a b : String} (h : a.toList = c :: rest) : (a ++ b).toList = c :: (rest ++ b.toList) := by
  rw [String.toList_append, h, List.cons_append]

theorem spares_finish (cwd : Path) (dir : String) (markers : Embed.Markers) (d : Directive) (content : String) :
    Spares uncached (Embed.finish cwd dir markers d content) := by
  have hmarker (v : Value) : Spares uncached (Embed.markerText v) := by
    rw [Embed.markerText]
    split
    · exact .ok _
    · exact .error (by simp [uncached])
  have hpart : Spares uncached (Embed.part markers d content) := by
    rw [Embed.part]
    split
    · refine (hmarker _).bind fun start => (hmarker _).bind fun stop => ?_
      split <;> exact .ok _
    · split
      · exact .ok _
      · exact .ok _
      · exact .error (by simp [uncached])
      · exact .ok _
    · split
      · exact .ok _
      · split <;> exact .ok _
    · exact .ok _
  refine hpart.bind fun found => ?_
  split <;> exact .ok _

theorem spares_answer (a : Query.Answer) : Spares uncached a.render := by
  rw [Query.Answer.render.eq_def]
  split
  · exact .ok _
  · split
    · exact .ok _
    · exact .ok _
    · exact (Spares.mapError fun _ => by simp [uncached]).bind fun _ => .ok _

theorem spares_view (options : Options) : Spares uncached (tableView options) := by
  rw [tableView]
  split
  · refine (Spares.mapError fun fault => ?_).bind fun _ => .ok _
    split <;> simp [uncached]
  · exact .ok _

theorem spares_admits (row : Table.Row) (conditions : List (Value × Value)) :
    Spares uncached (admits row conditions) := by
  induction conditions with
  | nil => exact .ok _
  | cons x conditions ih =>
    unfold admits
    dsimp only
    split
    · split_ifs
      · exact ih
      · exact .ok _
    · exact .error (by simp [uncached])

theorem spares_selectColumns (parts : List (List Char)) : Spares uncached (selectColumns parts) := by
  induction parts with
  | nil => exact .ok _
  | cons part rest ih =>
    rw [selectColumns]
    split
    · exact ih.bind fun _ => .ok _
    · exact .error (broken_ne_uncached (toList_append_cons (toList_append_cons rfl)) (by decide))

theorem spares_sortKeys (parts : List (List Char)) : Spares uncached (sortKeys parts) := by
  induction parts with
  | nil => exact .ok _
  | cons part rest ih =>
    rw [sortKeys]
    split
    · exact ih.bind fun _ => .ok _
    · exact .error (broken_ne_uncached (toList_append_cons (toList_append_cons rfl)) (by decide))

theorem spares_render (view : Table.View) (rows : List Table.Row) : Spares uncached (view.render rows) := by
  have hfilt : Spares uncached (filterRows view.filter rows) := by
    unfold filterRows
    split
    · exact .ok _
    · split
      · exact .filterM (fun row => spares_admits row _) _
      · split_ifs
        · exact .ok _
        · exact .error (by simp [uncached])
  have hcheck (rows : List Table.Row) (columns : List Table.Column) :
      Spares uncached (checkColumns rows columns) := by
    rw [checkColumns.eq_def]
    split
    · exact .ok _
    · split
      · exact .error (broken_ne_uncached (toList_append_cons (toList_append_cons rfl)) (by decide))
      · exact .ok _
  have happly : Spares uncached (view.apply rows) := by
    refine hfilt.bind fun rows => ?_
    dsimp only
    split_ifs
    · exact .ok _
    · exact (spares_sortKeys _).bind fun keys => .ok _
    · exact (spares_selectColumns _).bind fun columns => (hcheck rows columns).bind fun _ => .ok _
    · exact (spares_selectColumns _).bind fun columns => (hcheck rows columns).bind fun _ =>
        (spares_sortKeys _).bind fun keys => .ok _
  rw [Table.View.render]
  split_ifs
  · exact .ok _
  · exact happly.bind fun _ => .ok _

theorem spares_check (request : Digest.Request) : Spares uncached request.check := by
  rw [Digest.Request.check]
  split_ifs
  · exact .error (broken_ne_uncached rfl (by decide))
  · exact .error (by simp [uncached])
  · exact .ok _

theorem spares_synopsis (request : Digest.Request) (algorithm : String) (text : List Char) :
    Spares uncached (Digest.synopsis request algorithm text) := by
  refine (spares_check request).bind fun _ => ?_
  dsimp only
  split
  · exact .ok _
  · exact .ok _

theorem spares_recollection (request : Digest.Request) (question text : List Char) :
    Spares uncached (Digest.recollection request question text) := by
  refine (spares_check request).bind fun _ => ?_
  dsimp only
  split_ifs
  · exact .ok _
  · exact .ok _
  · exact .ok _

/-! ## Plugins -/

/-- Whether related desks come to the same when a trusted source is read, an error is shown or a question is asked. -/
structure Attends (reads : String → Option String × List Status → Prop) (trusted : String → Prop)
    (E : Crash → Prop) (A : Desk → Desk → Prop) : Prop where
  folder : ∀ {d d'}, A d d' → d'.disk.folder = d.disk.folder
  acceptAll : ∀ {d d'}, A d d' → d'.acceptAll = d.acceptAll
  readFile : ∀ {path}, trusted path → Even A (reads path) E (readFile path)
  errorLine : ∀ message : String, Even A (fun _ => True) E (errorLine s!"error: {message}")
  ask : Even A (fun _ => True) E ask
  accept : Even A (fun _ => True) E (modify fun d => { d with acceptAll := true })
  spares : ∀ c, c ≠ uncached → E c

variable {reads : String → Option String × List Status → Prop} {trusted : String → Prop} {E : Crash → Prop}
  {A : Desk → Desk → Prop} {s : Setting} {config : Config} {r : Registry}

section

variable (h : Attends reads trusted E A)
include h

theorem even_lift_of_spares {α : Type} {x : Except Crash α} (hx : Spares uncached x) :
    Even A (fun _ => True) E (lift x) :=
  even_lift ((outcome_self x).imp (fun _ _ => trivial) fun c hc => h.spares c fun he => hx.ne (he ▸ hc))

theorem even_digestText (hd : d.source = "" ∨ trusted d.source) (parent : List Fragment) :
    Even A (fun _ => True) E (digestText d parent) := by
  rw [digestText]
  split
  · exact even_pure trivial
  · rename_i hne
    exact even_bind (h.readFile (hd.resolve_left (by simpa using hne))) fun _ _ => even_pure trivial

theorem even_transform {p : Plugin} {place : Nat} {data : Option Data} {compiled : Option (Work String)}
    {parent : List Fragment} (hd : d.source = "" ∨ trusted d.source)
    (hcomp : ∀ text ∈ compiled, Even A (fun _ => True) E text) :
    Even A (fun _ => True) E (transform s p d place data compiled parent) := by
  unfold transform
  cases p.behaviour with
  | embed =>
    cases compiled with
    | none => exact even_pure trivial
    | some text =>
      refine even_bind (hcomp text rfl) fun content _ => even_bind_get fun d d' hd => ⟨by rw [h.folder hd], ?_⟩
      exact even_lift_of_spares h (spares_finish ..)
  | query =>
    cases compiled with
    | none => exact even_pure trivial
    | some text =>
      dsimp only
      split
      · exact even_lift_of_spares h (spares_answer _)
      · exact even_pure trivial
  | table =>
    cases compiled with
    | none => exact even_pure trivial
    | some text => exact even_lift_of_spares h ((spares_view _).bind fun view => spares_render view _)
  | greeting => exact even_pure trivial
  | synopsis => exact even_bind (even_digestText h hd parent) fun _ _ => even_lift_of_spares h (spares_synopsis ..)
  | recollection =>
    exact even_bind (even_digestText h hd parent) fun _ _ => even_lift_of_spares h (spares_recollection ..)
  | contents => exact even_pure trivial
  | custom answers => exact even_pure trivial

theorem even_presentErrors (errors : List Status) : Even A (fun _ => True) E (presentErrors errors) := by
  refine even_bind (even_forIn (fun e => ?_) errors) fun _ _ => even_pure trivial
  exact h.errorLine e.text

theorem even_showErrors (errors : List Status) : Even A (fun _ => True) E (showErrors config errors) := by
  refine even_bind_get fun d d' hd => ⟨by rw [h.acceptAll hd], ?_⟩
  split
  · exact even_presentErrors h errors
  · exact even_pure trivial

theorem even_goesOn (errors : List Status) : Even A (fun _ => True) E (goesOn errors) := by
  rw [goesOn]
  split
  · exact even_pure trivial
  · refine even_bind_get fun d d' hd => ⟨by rw [h.acceptAll hd], ?_⟩
    split
    · exact even_pure trivial
    · refine even_bind h.ask fun choice _ => ?_
      cases choice with
      | exit => exact even_throw (h.spares _ (by simp [uncached]))
      | no => exact even_pure trivial
      | yes => exact even_pure trivial
      | always => exact even_bind h.accept fun _ _ => even_pure trivial

end

/-! ## Documents -/

structure Advances (reads : String → Option String × List Status → Prop) (trusted : String → Prop)
    (E : Crash → Prop) (A : Desk → Desk → Prop) : Prop extends Attends reads trusted E A where
  advance : ∀ s, Even A (fun _ => True) E (advance s)
  restart : Even A (fun _ => True) E (modify fun d => { d with compiled := 0 })

def AllEven (A : Desk → Desk → Prop) (E : Crash → Prop) (actions : List (Nat × Action)) : Prop :=
  ∀ x ∈ actions, ∀ p parent, Even A (fun _ => True) E (x.2 p parent)

/-- Whether a plan reads only trusted sources, and has no documents that cannot be read unless this may be. -/
structure Ready (reads : String → Option String × List Status → Prop) (trusted : String → Prop) (E : Crash → Prop)
    (root : Node) : Prop where
  trusts : root.Trusts trusted
  opens : ∀ n ∈ root.walk, n.document.isSome = true →
    E uncached ∨ ∀ found, reads n.directive.source found → ∃ text, found = (some text, [])

theorem Ready.child {c : Node} (h : Ready reads trusted E n) (hc : c ∈ n.children) : Ready reads trusted E c where
  trusts m hm := h.trusts m (Node.mem_walk_of_mem_walk_child hc hm)
  opens m hm := h.opens m (Node.mem_walk_of_mem_walk_child hc hm)

theorem Ready.source (h : Ready reads trusted E n) : n.directive.source = "" ∨ trusted n.directive.source :=
  (h.trusts n n.self_mem_walk).imp And.left id

section

variable (h : Advances reads trusted E A)
include h

theorem even_limited {made : Work String} (hmade : Even A (fun _ => True) E made) :
    Even A (fun _ => True) E (limited s made) := by
  refine even_bind hmade fun text _ => even_bind (h.advance s) fun _ _ => ?_
  split
  · exact even_pure trivial
  · exact even_pure trivial

theorem even_standIn (hactions : AllEven A E actions) (parent : List Fragment) (place : Nat) (d : Directive) : Even A (fun _ => True) E (standIn s actions parent place d) := by
  rw [standIn]
  split
  · exact even_pure trivial
  · split
    · rename_i act hact
      exact hactions (place, act) (mem_of_lookup hact) _ _
    · split
      · rename_i hempty
        exact even_limited h (even_transform h.toAttends (.inl (by simpa using hempty)) fun text htext => by cases htext)
      · exact even_pure trivial

theorem even_turn (hactions : AllEven A E actions) (parent : List Fragment) (kind : Option String) (place : Nat)
    (fs : List Fragment) : Even A (fun _ => True) E (turn s actions parent kind place fs) := by
  induction fs generalizing place with
  | nil => exact even_pure trivial
  | cons f rest ih =>
    have hrest (f : Fragment) : Even A (fun _ => True) E (do
        return f :: (← turn s actions parent kind (place + 1) rest)) :=
      even_bind (ih _) fun _ _ => even_pure trivial
    cases f with
    | directive d =>
      rw [turn]
      split
      · exact even_bind (even_map (Q := fun _ => True) (even_standIn h hactions parent place d) fun _ _ => trivial)
          fun f _ => hrest f
      · exact even_bind (P := fun _ => True) (even_pure trivial) fun f _ => hrest f
    | span x => exact hrest _
    | text t => exact hrest _

theorem even_compileDocument {source : String} (hactions : AllEven A E actions) (hsrc : trusted source)
    (hopens : E uncached ∨ ∀ found, reads source found → ∃ text, found = (some text, [])) (fs : List Fragment) :
    Even A (fun _ => True) E (compileDocument s actions source fs) := by
  refine even_bind (h.readFile hsrc) fun found hfound => ?_
  split
  · refine even_bind (P := fun _ => True) ?_ fun _ _ => even_pure trivial
    rw [turns]
    split
    · exact even_turn h hactions _ _ _ _
    · exact even_foldlM (fun _ _ => even_turn h hactions _ _ _ _) _ _
  · rename_i hnone
    refine even_throw (hopens.resolve_right fun hopens => ?_)
    obtain ⟨text, htext⟩ := hopens _ hfound
    exact hnone text htext

end

mutual

theorem even_compileNode (h : Advances reads trusted E A) :
    (n : Node) → Ready reads trusted E n → (p : Plugin) → (parent : List Fragment) →
    Even A (fun _ => True) E (compileNode s n p parent)
  | ⟨d, place, status, document, children, data⟩, hn, p, parent => by
    rw [compileNode]
    refine even_transform h.toAttends hn.source fun text htext => ?_
    obtain ⟨fs, hdoc, rfl⟩ := Option.map_eq_some_iff.1 htext
    have hself := Node.self_mem_walk ⟨d, place, status, document, children, data⟩
    have hsrc : trusted d.source := (hn.trusts _ hself).resolve_left fun hnone => by
      rw [show document = none from hnone.2] at hdoc
      cases hdoc
    exact even_compileDocument h (allEven_compileAll h children fun c hc => hn.child hc) hsrc
      (hn.opens _ hself (by simp [hdoc])) fs

theorem allEven_compileAll (h : Advances reads trusted E A) :
    (ns : List Node) → (∀ n ∈ ns, Ready reads trusted E n) → AllEven A E (compileAll s ns)
  | [], _ => by
    rw [compileAll]
    exact List.forall_mem_nil _
  | n :: rest, hns => by
    rw [List.forall_mem_cons] at hns
    rw [compileAll]
    refine List.forall_mem_cons.2 ⟨fun p parent => ?_, allEven_compileAll h rest hns.2⟩
    dsimp only
    split
    · exact even_pure trivial
    · exact even_limited h (even_compileNode h n hns.1 p parent)

end

/-! ## Plans -/

def compileRoot (config : Config) (r : Registry) (compiledDir : String) (root : Node) : Work String :=
  match r.find? root.directive.kind with
  | none => return ""
  | some p => do
    modify fun d => { d with compiled := 0 }
    compileNode (settingOf config r compiledDir root) root p []

section

variable (h : Advances reads trusted E A)
include h

theorem even_compilePlan_of_node {P : String → Prop} {compiledDir : String} (hnothing : P "")
    (hnode : ∀ p, r.find? root.directive.kind = some p →
      Even A P E (compileNode (settingOf config r compiledDir root) root p [])) :
    Even A P E (compilePlan config r compiledDir root) := by
  have hroot : Even A P E (compileRoot config r compiledDir root) := by
    rw [compileRoot]
    split
    · exact even_pure hnothing
    · rename_i p hp
      exact even_bind h.restart fun _ _ => hnode p hp
  rw [compilePlan]
  split
  · exact even_bind (even_showErrors h.toAttends _) fun _ _ => even_pure hnothing
  · dsimp only
    split
    · refine even_bind (even_showErrors h.toAttends _) fun _ _ => even_bind (even_goesOn h.toAttends _) fun _ _ => ?_
      split
      · exact even_pure hnothing
      · exact hroot
    · exact hroot

theorem even_compilePlan (config : Config) (r : Registry) (hroot : Ready reads trusted E root)
    (compiledDir : String) : Even A (fun _ => True) E (compilePlan config r compiledDir root) :=
  even_compilePlan_of_node h trivial fun _ _ => even_compileNode h root hroot _ _

end

end Compile

end Transclude
