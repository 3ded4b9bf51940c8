import Transclude.Proofs.Logs

/-!
# Reports of directives

Compiling a plan reports each directive that gets its text from a plugin, by its number. Work `Costs` at most so many
reports, and what it leaves undone is kept for the work after it. A directive that is reported has a node of its own
below the root, so the reports of a plan never come to the number of its nodes (`walked_compilePlan`).
-/

namespace Transclude

open List Plan Nat

/-- The reports of `k` directives that come after `done` ones, of a file with `total` nodes. -/
def steps (source : String) (total : Nat) (done k : Nat) : List Output :=
  (List.range' (done + 1) k).map fun (index : Nat) => .event (.nodeCompiled source index total (.zero false))

theorem steps_append (source : String) (total : Nat) (done j k : Nat) :
    steps source total done j ++ steps source total (done + j) k = steps source total done (j + k) := by
  rw [steps, steps, steps, ← map_append, Nat.add_right_comm, List.range'_append_1]

theorem steps_succ (source : String) (total : Nat) (done k : Nat) : steps source total done (k + 1) =
    steps source total done k ++ [.event (.nodeCompiled source (done + k + 1 : Nat) total (.zero false))] :=
  (steps_append source total done k 1).symm

namespace Desk

def nodes (d : Desk) : List Output := d.log.filter Output.isNode

theorem nodes_of_append {d d' : Desk} {new : List Output} (h : d'.past = new ++ d.past) :
    d'.nodes = d.nodes ++ new.reverse.filter Output.isNode := by
  rw [nodes, log, h, reverse_append, filter_append]
  rfl

structure Counted (source : String) (total : Nat) (k : Nat) (d d' : Desk) : Prop where
  compiled : d'.compiled = d.compiled + k
  nodes : d'.nodes = d.nodes ++ steps source total d.compiled k

variable {source : String} {total : Nat} {d d₁ d₂ : Desk} {j k : Nat}

theorem Counted.trans (h : Counted source total j d d₁) (h' : Counted source total k d₁ d₂) :
    Counted source total (j + k) d d₂ where
  compiled := by rw [h'.compiled, h.compiled, Nat.add_assoc]
  nodes := by rw [h'.nodes, h.nodes, h.compiled, append_assoc, steps_append]

/-- The directives of a file were reported from the first one on, but not as many as there are nodes. -/
def Walked (source : String) (total : Nat) (d d' : Desk) : Prop :=
  ∃ k < total, d'.nodes = d.nodes ++ steps source total 0 k

instance : Mild (Counted source total 0) where
  refl _ := ⟨rfl, (append_nil _).symm⟩
  trans h h' := h.trans h'
  alter _ hpast hcomp := ⟨hcomp, by rw [Desk.nodes, Desk.log, hpast]; exact (append_nil _).symm⟩
  report _ hnode d := ⟨rfl, (nodes_of_append (show _ = [_] ++ _ from rfl)).trans (by simp [hnode, steps])⟩

end Desk

namespace Work

variable {α β : Type} {source : String} {total : Nat} {pot : α → Nat} {b c : Nat} {m : Work α} {f : α → Work β}
  {pot' : β → Nat}

/-- Work that reports at most `b` directives, and leaves `pot a` of them for what comes after its result `a`. -/
structure Costs (source : String) (total : Nat) (pot : α → Nat) (b : Nat) (m : Work α) : Prop where
  run : ∀ d, ∃ k ≤ b, Desk.Counted source total k d (m.run d).2 ∧ ∀ a, (m.run d).1 = .ok a → k + pot a ≤ b

theorem Costs.of_moves (h : Moves (Desk.Counted source total 0) m) (hpot : ∀ a, pot a ≤ b) :
    Costs source total pot b m :=
  ⟨fun d => ⟨0, Nat.zero_le b, h.run d, fun a _ => by rw [Nat.zero_add]; exact hpot a⟩⟩

theorem costs_pure {a : α} (h : pot a ≤ b) : Costs source total pot b (pure a) :=
  ⟨fun d => ⟨0, Nat.zero_le b, Desk.Frame.refl d, fun _ ha => by cases ha; rwa [Nat.zero_add]⟩⟩

theorem Costs.bind (hm : Costs source total pot b m) (hf : ∀ a, Costs source total pot' (pot a) (f a)) : Costs source total pot' b (m >>= f) := by
  refine ⟨fun d => ?_⟩
  obtain ⟨j, hj, hcnt, hpot⟩ := hm.run d
  rcases hrun : m.run d with ⟨c | a, d₁⟩
  · rw [run_bind_of_error hrun]
    rw [hrun] at hcnt
    exact ⟨j, hj, hcnt, fun _ h => by cases h⟩
  · rw [run_bind_of_ok hrun]
    rw [hrun] at hcnt hpot
    have hleft := hpot a rfl
    obtain ⟨k, hk, hcnt', hpot'⟩ := (hf a).run d₁
    refine ⟨j + k, by omega, hcnt.trans hcnt', fun x hx => ?_⟩
    have := hpot' x hx
    omega

theorem Costs.mono {pot' : α → Nat} (h : Costs source total pot b m) (hb : b ≤ c)
    (hpot : ∀ a, pot' a ≤ pot a + (c - b)) : Costs source total pot' c m := by
  refine ⟨fun d => ?_⟩
  obtain ⟨k, hk, hcnt, hleft⟩ := h.run d
  refine ⟨k, by omega, hcnt, fun a ha => ?_⟩
  have := hleft a ha
  have := hpot a
  omega

theorem Costs.frame (h : Costs source total pot b m) (c : Nat) : Costs source total (fun a => c + pot a) (c + b) m :=
  h.mono (le_add_left b c) fun a => by omega

theorem Costs.map {f : α → β} (h : Costs source total pot b m) (hpot : ∀ a, pot' (f a) ≤ pot a) : Costs source total pot' b (f <$> m) := by
  exact h.bind fun a => costs_pure (hpot a)

theorem walked_pure (hpos : 0 < total) (a : α) : Moves (Desk.Walked source total) (pure a : Work α) :=
  ⟨fun _ => ⟨0, hpos, (append_nil _).symm⟩⟩

theorem Moves.walked (hpos : 0 < total) (hm : Moves (Desk.Counted source total 0) m)
    (hf : ∀ a, Moves (Desk.Walked source total) (f a)) : Moves (Desk.Walked source total) (m >>= f) := by
  refine ⟨fun d => ?_⟩
  rcases hrun : m.run d with ⟨c | a, d₁⟩
  · rw [run_bind_of_error hrun]
    exact ⟨0, hpos, (hm.of_run hrun).nodes⟩
  · rw [run_bind_of_ok hrun]
    obtain ⟨k, hk, hnodes⟩ := (hf a).run d₁
    exact ⟨k, hk, by rw [hnodes, (hm.of_run hrun).nodes]; simp [steps]⟩

end Work

/-! ## Nodes -/

namespace Node

theorem countAll_append (ns ms : List Node) : countAll (ns ++ ms) = countAll ns + countAll ms := by
  induction ns with
  | nil => simp [countAll]
  | cons n ns ih => rw [cons_append, countAll, ih, countAll, Nat.add_assoc]

theorem count_le_countAll {n : Node} {ns : List Node} (h : n ∈ ns) : n.count ≤ countAll ns := by
  obtain ⟨before, after, rfl⟩ := append_of_mem h
  rw [countAll_append, countAll]
  omega

theorem count_eq (n : Node) : n.count = countAll n.children + 1 := by
  cases n
  rw [count, Nat.add_comm]

theorem countAll_from (ns : List Node) (place : Nat) : countAll (ns.filter (place ≤ ·.place)) =
    countAll (ns.filter (·.place == place)) + countAll (ns.filter (place + 1 ≤ ·.place)) := by
  induction ns with
  | nil => rfl
  | cons n ns ih =>
    rcases Nat.lt_trichotomy n.place place with h | h | h
    · rw [filter_cons_of_neg (by rw [decide_eq_true_iff]; omega), filter_cons_of_neg (by rw [beq_iff_eq]; omega),
        filter_cons_of_neg (by rw [decide_eq_true_iff]; omega), ih]
    · rw [filter_cons_of_pos (by rw [decide_eq_true_iff]; omega), filter_cons_of_pos (by rw [beq_iff_eq]; omega),
        filter_cons_of_neg (by rw [decide_eq_true_iff]; omega), countAll, countAll, ih, Nat.add_assoc]
    · rw [filter_cons_of_pos (by rw [decide_eq_true_iff]; omega), filter_cons_of_neg (by rw [beq_iff_eq]; omega),
        filter_cons_of_pos (by rw [decide_eq_true_iff]; omega), countAll, countAll]
      omega

end Node

namespace Compile

open Work Node

variable {source : String} {total levels place : Nat} {s : Setting} {r : Registry} {b : Nat} {children : List Node}
  {actions : List (Nat × Action)} {config : Config} {root : Node}

/-- How many directives are reported at most when a fragment at a place gets its text: itself and those below it. -/
def weight (r : Registry) (children : List Node) (place : Nat) : Fragment → Nat
  | .directive d =>
    if children.any (·.place == place) then countAll (children.filter (·.place == place))
    else if d.source.isEmpty && (r.find? d.kind).isSome then 1 else 0
  | .span _ => 0
  | .text _ => 0

/-- How many directives are reported at most for the fragments of a document from a place on. -/
def pending (r : Registry) (children : List Node) (place : Nat) : List Fragment → Nat
  | [] => 0
  | f :: rest => weight r children place f + pending r children (place + 1) rest

theorem pending_withTexts (children : List Node) (content : List Char) (place : Nat) (fs : List Fragment) :
    pending r children place (withTexts content fs) = pending r children place fs := by
  induction fs generalizing place with
  | nil => rfl
  | cons f rest ih => cases f <;> simp_all [withTexts, pending, weight]

theorem costs_advance (hs : s.progress = some (source, total)) : Costs source total (fun _ => 0) 1 (advance s) := by
  refine ⟨fun d => ⟨1, Nat.le_refl 1, ?_, fun _ _ => Nat.le_refl 1⟩⟩
  rw [advance, hs]
  have hnodes (h : ((advance s).run d).2.past = steps source total d.compiled 1 ++ d.past) := Desk.nodes_of_append h
  rw [advance, hs] at hnodes
  exact ⟨rfl, hnodes rfl⟩

theorem costs_limited (hs : s.progress = some (source, total)) {made : Work String}
    (h : Costs source total (fun _ => 0) b made) : Costs source total (fun _ => 0) (b + 1) (limited s made) := by
  have hmade : Costs source total (fun _ => 1) (b + 1) made := h.mono (Nat.le_succ b) fun _ => by omega
  refine hmade.bind fun text => (costs_advance hs).bind fun _ => ?_
  split <;> exact costs_pure (Nat.le_refl 0)

theorem costs_transform {p : Plugin} {d : Directive} {data : Option Data} {compiled : Option (Work String)}
    {parent : List Fragment} (h : ∀ text ∈ compiled, Costs source total (fun _ => 0) b text) :
    Costs source total (fun _ => 0) b (transform s p d place data compiled parent) := by
  -- only the plugin that embeds files compiles the document of its source
  have hother (hp : p.behaviour ≠ .embed) : transform s p d place data compiled parent =
      transform s p d place data (compiled.map fun _ => pure "") parent := by
    unfold transform
    cases hb : p.behaviour with
    | embed => exact absurd hb hp
    | _ => cases compiled <;> rfl
  by_cases hp : p.behaviour = .embed
  · unfold transform
    rw [hp]
    cases compiled with
    | none => exact costs_pure (zero_le b)
    | some text => exact (h text rfl).bind fun _ => .of_moves (.bind moves_get fun _ => moves_lift _) fun _ => Nat.le_refl 0
  · rw [hother hp]
    refine .of_moves (calm_transform fun text htext => ?_) fun _ => zero_le b
    obtain ⟨_, -, rfl⟩ := Option.map_eq_some_iff.1 htext
    exact moves_pure ""

theorem costs_turn (h : ∀ parent place d, Costs source total (fun _ => 0) (weight r children place (.directive d))
      (standIn s actions parent place d)) (parent : List Fragment) (kind : Option String) (place : Nat)
    (fs : List Fragment) : Costs source total (pending r children place) (pending r children place fs)
      (turn s actions parent kind place fs) := by
  induction fs generalizing place with
  | nil => exact costs_pure (Nat.le_refl 0)
  | cons f rest ih =>
    have hrest (f : Fragment) : Costs source total (pending r children place)
        (pending r children (place + 1) rest + weight r children place f)
        (do return f :: (← turn s actions parent kind (place + 1) rest)) := by
      rw [Nat.add_comm]
      exact ((ih (place + 1)).frame (weight r children place f)).bind fun _ => costs_pure (Nat.le_refl _)
    rw [pending, Nat.add_comm]
    cases f with
    | directive d =>
      rw [turn]
      split
      · have hstand : Costs source total (weight r children place) (weight r children place (.directive d))
            (Fragment.text <$> standIn s actions parent place d) := (h parent place d).map fun _ => Nat.le_refl 0
        exact (hstand.frame _).bind hrest
      · exact (Costs.frame (costs_pure (Nat.le_refl _)) _).bind hrest
    | span x => exact hrest (.span x)
    | text t => exact hrest (.text t)

theorem costs_turns (h : ∀ parent place d, Costs source total (fun _ => 0) (weight r children place (.directive d))
      (standIn s actions parent place d)) (fs : List Fragment) :
    Costs source total (pending r children 0) (pending r children 0 fs) (turns s actions fs) := by
  rw [turns]
  split
  · exact costs_turn h ..
  · induction s.sequence generalizing fs with
    | nil => exact costs_pure (Nat.le_refl _)
    | cons kind kinds ih =>
      exact (costs_turn h ..).bind ih

theorem costs_standIn (hs : s.progress = some (source, total))
    (h : ∀ c ∈ children, ∀ p parent, Costs source total (fun _ => 0) c.count (actionOf s c p parent))
    (parent : List Fragment) (place : Nat) (d : Directive) :
    Costs source total (fun _ => 0) (weight s.registry children place (.directive d))
      (standIn s (compileAll s children) parent place d) := by
  rw [standIn, weight, compileAll_eq_map]
  cases hp : s.registry.find? d.kind with
  | none => exact costs_pure (zero_le _)
  | some p =>
    dsimp only
    cases hact : (children.map fun n => (n.place, actionOf s n)).lookup place with
    | some act =>
      obtain ⟨c, hc, hlabel⟩ := mem_map.1 (mem_of_lookup hact)
      obtain ⟨rfl, rfl⟩ := Prod.mk.inj hlabel
      have hat : c ∈ children.filter (·.place == c.place) := mem_filter.2 ⟨hc, beq_self_eq_true _⟩
      have hany : children.any (·.place == c.place) = true := any_eq_true.2 ⟨c, hc, beq_self_eq_true c.place⟩
      rw [if_pos hany]
      exact (h c hc p parent).mono (count_le_countAll hat) fun _ => zero_le _
    | none =>
      have hnone : ¬ (children.any (·.place == place)) = true := by
        rw [any_eq_true]
        rintro ⟨c, hc, hplace⟩
        have hne := lookup_eq_none_iff.1 hact _ (mem_map_of_mem hc)
        simp_all
      rw [if_neg hnone]
      by_cases hsrc : d.source.isEmpty = true
      · rw [hsrc]
        exact costs_limited hs (costs_transform fun _ htext => by cases htext)
      · rw [if_neg hsrc]
        exact costs_pure (zero_le _)

theorem pending_le {fs : List Fragment}
    (h : ∀ x ∈ directivesFrom place fs, (!x.2.source.isEmpty || (r.find? x.2.kind).isSome) = true →
      ∃ c ∈ children, c.place = x.1) :
    pending r children place fs ≤ countAll (children.filter (place ≤ ·.place)) := by
  induction fs generalizing place with
  | nil => exact zero_le _
  | cons f rest ih =>
    have hlater : pending r children (place + 1) rest ≤ countAll (children.filter (place + 1 ≤ ·.place)) := by
      refine ih fun x hx => h x ?_
      cases f with
      | directive d => exact mem_cons_of_mem _ hx
      | span x => exact hx
      | text t => exact hx
    have hweight : weight r children place f ≤ countAll (children.filter (·.place == place)) := by
      cases f with
      | directive d =>
        rw [weight]
        split_ifs with hany hbare
        · exact Nat.le_refl _
        · rw [Bool.and_eq_true] at hbare
          obtain ⟨c, hc, hplace⟩ := h (place, d) mem_cons_self (by simp [hbare.2])
          exact absurd (any_eq_true.2 ⟨c, hc, by simpa using hplace⟩) hany
        · exact zero_le _
      | span x => exact zero_le _
      | text t => exact zero_le _
    rw [countAll_from]
    exact Nat.add_le_add hweight hlater

theorem costs_compileNode (hs : s.progress = some (source, total)) {n : Node} (h : Planned s.registry levels n)
    (p : Plugin) (parent : List Fragment) :
    Costs source total (fun _ => 0) (countAll n.children) (compileNode s n p parent) := by
  induction h generalizing p parent with
  | @leaf levels n hdoc hkids =>
    obtain ⟨d, place, status, document, children, data⟩ := n
    obtain rfl : document = none := hdoc
    exact costs_transform fun _ htext => by cases htext
  | @branch levels n fragments hdoc hperm hall ih =>
    have hplanned : Planned s.registry (levels + 1) n := .branch hdoc hperm hall
    have hpending : pending s.registry n.children 0 fragments ≤ countAll n.children := by
      have hle : pending s.registry n.children 0 fragments ≤ countAll (n.children.filter (0 ≤ ·.place)) := by
        refine pending_le fun x hx hwanted => ?_
        obtain ⟨c, hc, hlabel, -⟩ := hplanned.exists_child hdoc (mem_filter.2 ⟨hx, hwanted⟩) s
        exact ⟨c, hc, congrArg Prod.fst hlabel⟩
      simpa using hle
    have haction : ∀ c ∈ n.children, ∀ p parent, Costs source total (fun _ => 0) c.count (actionOf s c p parent) := by
      intro c hc p parent
      rw [actionOf, count_eq]
      split
      · exact costs_pure (zero_le _)
      · exact costs_limited hs (ih c hc p parent)
    have hsame (content : List Char) : pending s.registry n.children 0 (withTexts content fragments) =
        pending s.registry n.children 0 fragments := pending_withTexts ..
    obtain ⟨d, place, status, document, children, data⟩ := n
    obtain rfl : document = some fragments := hdoc
    refine costs_transform fun text htext => ?_
    obtain rfl := Option.some.inj htext
    refine Costs.bind (.of_moves (calm_readFile _) fun _ => hpending) fun found => ?_
    split
    · rename_i content
      have hturns := costs_turns (costs_standIn hs haction) (withTexts content.toList fragments)
      rw [hsame] at hturns
      exact hturns.bind fun _ => costs_pure (zero_le _)
    · exact .of_moves (moves_throw _) fun _ => zero_le _

theorem walked_compileRoot (h : Planned r levels root) (compiledDir : String) :
    Moves (Desk.Walked root.directive.source root.count) (compileRoot config r compiledDir root) := by
  rw [compileRoot]
  split
  · exact walked_pure (by rw [count_eq]; omega) _
  · rename_i p hp
    have hcosts := costs_compileNode (s := settingOf config r compiledDir root) rfl h p []
    refine ⟨fun d => ?_⟩
    obtain ⟨k, hk, hcnt, -⟩ := hcosts.run { d with compiled := 0 }
    exact ⟨k, by rw [count_eq]; omega, hcnt.nodes⟩

theorem walked_compilePlan (h : Planned r levels root) (compiledDir : String) :
    Moves (Desk.Walked root.directive.source root.count) (compilePlan config r compiledDir root) := by
  have hpos : 0 < root.count := by rw [count_eq]; omega
  rw [compilePlan]
  split
  · exact .walked hpos (calm_showErrors _) fun _ => walked_pure hpos _
  · dsimp only
    split
    · refine .walked hpos (calm_showErrors _) fun _ => .walked hpos (calm_goesOn _) fun _ => ?_
      split
      · exact walked_pure hpos _
      · exact walked_compileRoot h compiledDir
    · exact walked_compileRoot h compiledDir

end Compile

end Transclude
