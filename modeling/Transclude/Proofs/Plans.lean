import Mathlib.Data.List.Perm.Basic
import Transclude.Proofs.Making

/-!
# The trees that planning makes

A document gets a node for each of its directives that has a source or a plugin, each once, and documents
lie no deeper than the limit says.
-/

namespace Transclude

open List Plan

variable {fragments : List Fragment} {levels k max : Nat} {n root : Node} {checked : List (Placed × Option Status)}
  {x : Placed}

namespace Node

inductive AtDepth (root : Node) : Nat → Node → Prop where
  | root : AtDepth root 0 root
  | child {k : Nat} {n c : Node} : AtDepth root k n → c ∈ n.children → AtDepth root (k + 1) c

end Node

namespace Plan

def wanted (r : Registry) (fragments : List Fragment) : List Placed :=
  (directivesFrom 0 fragments).filter fun x => !x.2.source.isEmpty || (r.find? x.2.kind).isSome

/-- A tree with documents on at most `levels` levels; the children of a document are those that its directives get. -/
inductive Planned (r : Registry) : Nat → Node → Prop where
  | leaf {levels : Nat} {n : Node} : n.document = none → n.children = [] → Planned r levels n
  | branch {levels : Nat} {n : Node} {fragments : List Fragment} : n.document = some fragments →
      (n.children.map Node.label).Perm (wanted r fragments) →
      (∀ c ∈ n.children, Planned r levels c) →
      Planned r (levels + 1) n

variable {r : Registry} {s : Setting}

theorem planned_failed (d : Directive) (place : Nat) (errors : List Status) :
    Planned r levels (.failed d place errors) :=
  .leaf rfl rfl

/-! ## From results to trees -/

/-- Sources that can be planned, those that cannot and directives without a source together are the
directives that get a node. -/
theorem labels_perm (directives : List Placed) {built broken bare : List Node}
    (hchk : checked.map (·.1) = directives.filter fun x => !x.2.source.isEmpty)
    (hbuilt : built.map Node.label = (checked.filter (·.2.isNone)).map (·.1))
    (hbroken : broken.map Node.label = (checked.filter (·.2.isSome)).map (·.1)) (hbare : bare.map Node.label =
      (directives.filter fun x => x.2.source.isEmpty).filter fun x => (r.find? x.2.kind).isSome) :
    ((built ++ broken ++ bare).map Node.label).Perm
      (directives.filter fun x => !x.2.source.isEmpty || (r.find? x.2.kind).isSome) := by
  have hsourced : ((built ++ broken).map Node.label).Perm (directives.filter fun x => !x.2.source.isEmpty) := by
    rw [map_append, hbuilt, hbroken, ← hchk, ← map_append]
    refine List.Perm.map _ ?_
    have := filter_append_perm (fun y : Placed × Option Status => y.2.isNone) checked
    simpa using this
  have hsplit := filter_append_perm (fun x : Placed => !x.2.source.isEmpty)
    (directives.filter fun x => !x.2.source.isEmpty || (r.find? x.2.kind).isSome)
  rw [filter_filter, filter_filter] at hsplit
  refine List.Perm.trans ?_ hsplit
  rw [map_append, hbare, filter_filter]
  refine (hsourced.append_right _).trans (List.Perm.of_eq ?_)
  congr 1 <;> exact filter_congr fun x _ => by cases x.2.source.isEmpty <;> simp

theorem labels_broken (checked : List (Placed × Option Status)) :
    (broken checked).map Node.label = (checked.filter (·.2.isSome)).map (·.1) := by
  induction checked with
  | nil => rfl
  | cons x checked ih =>
    obtain ⟨x, _ | e⟩ := x
    · exact ih
    · exact congrArg (x :: ·) ih

theorem planned_of_mem_broken (h : n ∈ broken checked) : Planned r levels n := by
  obtain ⟨x, -, hx⟩ := mem_filterMap.1 h
  obtain ⟨e, -, rfl⟩ := Option.map_eq_some_iff.1 hx
  exact planned_failed ..

theorem Made.planned {w : World} {room : Nat} {above : List String} {given : Option String}
    (h : Made w s room above given n) : Planned s.registry (room + 1) n := by
  induction h with
  | refused => exact planned_failed ..
  | unread => exact planned_failed ..
  | @document room above given n content fragments refusals checked built bare hdrawn hsort hkids _ ih =>
    refine .branch hdrawn.document ?_ fun c hc => ?_
    · rw [hkids]
      exact labels_perm _ hsort.labels hsort.planned (labels_broken checked) hsort.unsourced
    · rw [hkids, mem_append, mem_append] at hc
      rcases hc with (hc | hc) | hc
      · have hroom := (hsort.of_mem_built hc).2.2.of_none.2.1
        rw [← Nat.succ_pred_eq_of_ne_zero hroom]
        exact ih c hc
      · exact planned_of_mem_broken hc
      · exact .leaf (hsort.sourceless c hc).document (hsort.sourceless c hc).children

variable {config : Config}

theorem planned_of_plan_ok (subject : Subject) {desk desk' : Desk}
    (h : (subject.plan config r).run desk = (.ok root, desk')) :
    Planned r (config.maxRecursion.value.toNat + 1) root :=
  (rooted_of_plan_ok subject h).made.planned

theorem planFile_ok {path : String} {desk desk' : Desk} (h : (planFile config r path).run desk = (.ok root, desk')) :
    Planned r (config.maxRecursion.value.toNat + 1) root :=
  planned_of_plan_ok (.file path) h

/-! ## Depths -/

theorem Planned.atDepth (h : Planned r levels root) (hn : root.AtDepth k n) : ∃ l, l + k = levels ∧ Planned r l n := by
  induction hn with
  | root => exact ⟨levels, rfl, h⟩
  | child _ hc ih =>
    obtain ⟨l, hl, hp⟩ := ih
    cases hp with
    | leaf _ hnone =>
      rw [hnone] at hc
      cases hc
    | branch _ _ hall => exact ⟨_, by omega, hall _ hc⟩

theorem Planned.depth_le (h : Planned r (max + 1) root) (hn : root.AtDepth k n) : k ≤ max + 1 := by
  obtain ⟨l, hl, -⟩ := h.atDepth hn
  omega

theorem Planned.document_depth_le (h : Planned r (max + 1) root) (hn : root.AtDepth k n) (hd : n.document.isSome) : k ≤ max := by
  obtain ⟨l, hl, hp⟩ := h.atDepth hn
  cases hp with
  | leaf hnone _ => simp [hnone] at hd
  | branch => omega

theorem Planned.children_eq_nil (h : Planned r levels n) (hd : n.document = none) : n.children = [] := by
  cases h with
  | leaf _ hc => exact hc
  | branch hsome => simp [hd] at hsome

theorem Planned.children_perm (h : Planned r levels n) (hd : n.document = some fragments) :
    (n.children.map Node.label).Perm (wanted r fragments) := by
  cases h with
  | leaf hnone _ => simp [hd] at hnone
  | branch hsome hperm _ =>
    rw [hd] at hsome
    cases hsome
    exact hperm

/-! ## Places -/

theorem of_mem_directivesFrom {place : Nat} (h : x ∈ directivesFrom place fragments) :
    place ≤ x.1 ∧ .directive x.2 ∈ fragments := by
  induction fragments generalizing place with
  | nil => cases h
  | cons f fragments ih =>
    have hrest (h : x ∈ directivesFrom (place + 1) fragments) : place ≤ x.1 ∧ .directive x.2 ∈ f :: fragments :=
      (ih h).imp Nat.le_of_succ_le (mem_cons_of_mem _)
    cases f with
    | directive d =>
      rcases mem_cons.1 h with rfl | h
      · exact ⟨Nat.le_refl _, mem_cons_self⟩
      · exact hrest h
    | span _ => exact hrest h
    | text _ => exact hrest h

theorem nodup_places (place : Nat) (fragments : List Fragment) :
    ((directivesFrom place fragments).map (·.1)).Nodup := by
  induction fragments generalizing place with
  | nil => exact nodup_nil
  | cons f fragments ih =>
    cases f with
    | directive d =>
      refine nodup_cons.2 ⟨fun h => ?_, ih (place + 1)⟩
      obtain ⟨x, hx, hp⟩ := mem_map.1 h
      have := (of_mem_directivesFrom hx).1
      simp only at hp
      omega
    | span _ => exact ih (place + 1)
    | text _ => exact ih (place + 1)

theorem Planned.nodup_places (h : Planned r levels n) (hd : n.document = some fragments) :
    (n.children.map (·.place)).Nodup := by
  have hperm := (h.children_perm hd).map (·.1)
  rw [map_map] at hperm
  refine (List.Perm.nodup_iff hperm).2 (List.Nodup.sublist ?_ (Plan.nodup_places 0 fragments))
  exact filter_sublist.map _

end Plan

/-! ## Children in a compiled document -/

namespace Compile

def actionOf (s : Setting) (n : Node) : Action := fun p parent =>
  let errors := n.status.filter (·.isFailure)
  if n.document.isNone && !errors.isEmpty then pure (Embed.errorNote (errors.map (·.text)))
  else limited s (compileNode s n p parent)

theorem compileAll_eq_map (s : Setting) (ns : List Node) :
    compileAll s ns = ns.map fun n => (n.place, actionOf s n) := by
  induction ns with
  | nil => rw [compileAll, map_nil]
  | cons n ns ih =>
    rw [compileAll, ih]
    rfl

theorem lookup_compileAll {s : Setting} {ns : List Node} (h : (ns.map (·.place)).Nodup) (hn : n ∈ ns) : (compileAll s ns).lookup n.place = some (actionOf s n) := by
  rw [compileAll_eq_map]
  induction ns with
  | nil => cases hn
  | cons m ns ih =>
    obtain ⟨hm, h⟩ := nodup_cons.1 h
    rw [map_cons, lookup_cons]
    rcases mem_cons.1 hn with rfl | hn
    · rw [beq_self_eq_true]
    · have hne : n.place ≠ m.place := fun e => hm (mem_map.2 ⟨n, hn, e⟩)
      rw [beq_false_of_ne hne]
      exact ih h hn

end Compile

theorem Plan.Planned.exists_child {r : Registry} (h : Planned r levels n) (hd : n.document = some fragments)
    (hx : x ∈ wanted r fragments) (s : Compile.Setting) :
    ∃ c ∈ n.children, c.label = x ∧ (Compile.compileAll s n.children).lookup x.1 = some (Compile.actionOf s c) := by
  obtain ⟨c, hc, rfl⟩ := mem_map.1 ((h.children_perm hd).mem_iff.2 hx)
  exact ⟨c, hc, rfl, Compile.lookup_compileAll (h.nodup_places hd) hc⟩

end Transclude
