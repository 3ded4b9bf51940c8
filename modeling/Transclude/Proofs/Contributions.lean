import Transclude.Proofs.Logs
import Transclude.Proofs.Passes

/-!
# What directives contribute

A compiled document is made of pieces, one for each fragment. A directive whose kind has a turn leaves the output of
its plugin or a note; one whose kind has none leaves nothing (`compilePlan_contributions`).
-/

namespace Transclude

open List

variable {kinds : List String} {had had' : String → Prop} {root n : Node} {levels : Nat} {compiledDir : String}
  {fs gs : List Fragment}
variable {d d' : Desk} {kind : String} {place : Nat}


/-! ## The kinds that have a turn -/

namespace Registry

variable {r : Registry}

theorem mem_of_mem_addModule {module : Value} (h : kind ∈ r.addModule kinds module) : kind ∈ kinds ∨ ∃ e ∈ r.plugins, e.2.kind = kind := by
  rw [addModule] at h
  split at h
  · rename_i e he
    rcases mem_append.1 h with h | h
    · exact .inl h
    · exact .inr ⟨e, mem_of_find?_eq_some he, (mem_singleton.1 h).symm⟩
  · exact .inl h

theorem mem_of_mem_addModules {modules : List Value} (h : kind ∈ modules.foldl r.addModule kinds) : kind ∈ kinds ∨ ∃ e ∈ r.plugins, e.2.kind = kind := by
  induction modules generalizing kinds with
  | nil => exact .inl h
  | cons module modules ih =>
    rcases ih h with h | h
    · exact mem_of_mem_addModule h
    · exact .inr h

theorem mem_sequence_iff (modules : List Value) :
    kind ∈ r.sequence modules ↔ ∃ e ∈ r.plugins, e.2.kind = kind := by
  constructor
  · intro h
    rcases mem_addKinds_iff.1 h with h | h
    · exact (mem_of_mem_addModules h).resolve_left not_mem_nil
    · exact h
  · rintro ⟨e, he, rfl⟩
    exact mem_sequence modules he

end Registry

namespace Compile

open Plan Work

variable {s : Setting} {actions : List (Nat × Action)}

/-! ## Fragments that had their turn -/

/-- What has become of a fragment after the turns of some kinds: a directive of one of them has given way to its text.
-/
inductive Turned (s : Setting) (actions : List (Nat × Action)) (had : String → Prop) :
    Fragment × Nat → Fragment → Prop where
  | still {f : Fragment} {place : Nat} : (∀ x, f = .directive x → ¬ had x.kind) → Turned s actions had (f, place) f
  | replaced {c : Call} {d d' : Desk} : had c.directive.kind → StandsIn s actions c d d' →
      Turned s actions had (.directive c.directive, c.place) (.text c.text)

abbrev AllTurned (s : Setting) (actions : List (Nat × Action)) (had : String → Prop) (place : Nat)
    (fs gs : List Fragment) : Prop :=
  List.Forall₂ (Turned s actions had) (fs.zipIdx place) gs

theorem allTurned_refl (h : ∀ k, ¬ had k) (place : Nat) (fs : List Fragment) : AllTurned s actions had place fs fs := by
  induction fs generalizing place with
  | nil => exact .nil
  | cons f fs ih => exact .cons (.still fun x _ => h x.kind) (ih (place + 1))

theorem allTurned_of_turn {parent : List Fragment} {kind : Option String}
    (h : (turn s actions parent kind place fs).run d = (.ok gs, d')) :
    AllTurned s actions (fun k => kind.all (· == k)) place fs gs := by
  induction fs generalizing place gs d with
  | nil =>
    cases h
    exact .nil
  | cons f fs ih =>
    cases f with
    | text t =>
      obtain ⟨rest, _, hrest, h⟩ := bind_ok h
      cases h
      exact .cons (.still fun _ h => nomatch h) (ih hrest)
    | span x =>
      obtain ⟨rest, _, hrest, h⟩ := bind_ok h
      cases h
      exact .cons (.still fun _ h => nomatch h) (ih hrest)
    | directive x =>
      rw [turn] at h
      by_cases hkind : kind.all (· == x.kind) = true
      · rw [if_pos hkind] at h
        obtain ⟨f, _, hf, h⟩ := bind_ok h
        obtain ⟨t, ht, rfl⟩ := map_ok hf
        obtain ⟨rest, _, hrest, h⟩ := bind_ok h
        cases h
        exact .cons (.replaced (c := ⟨place, x, parent, t⟩) hkind ht) (ih hrest)
      · rw [if_neg hkind] at h
        obtain ⟨f, _, hf, h⟩ := bind_ok h
        cases hf
        obtain ⟨rest, _, hrest, h⟩ := bind_ok h
        cases h
        refine .cons (.still fun y hy => ?_) (ih hrest)
        cases hy
        exact hkind

theorem Turned.trans {f g g' : Fragment} (h : Turned s actions had (f, place) g)
    (h' : Turned s actions had' (g, place) g') : Turned s actions (fun k => had k ∨ had' k) (f, place) g' := by
  cases h with
  | still hstill =>
    cases h' with
    | still hstill' => exact .still fun x hx => not_or.2 ⟨hstill x hx, hstill' x hx⟩
    | replaced hhad hstands => exact .replaced (.inr hhad) hstands
  | replaced hhad hstands =>
    cases h' with
    | still => exact .replaced (.inl hhad) hstands

theorem AllTurned.trans {hs : List Fragment} (h : AllTurned s actions had place fs gs)
    (h' : AllTurned s actions had' place gs hs) : AllTurned s actions (fun k => had k ∨ had' k) place fs hs := by
  induction fs generalizing place gs hs with
  | nil =>
    cases h
    cases h'
    exact .nil
  | cons f fs ih =>
    cases h with
    | cons hf hfs =>
      cases h' with
      | cons hg hgs => exact .cons (hf.trans hg) (ih hfs hgs)

theorem allTurned_of_foldlM
    (h : (kinds.foldlM (fun fs kind => turn s actions fs (some kind) 0 fs) fs).run d = (.ok gs, d')) :
    AllTurned s actions (· ∈ kinds) 0 fs gs := by
  induction kinds generalizing fs d with
  | nil =>
    cases h
    exact allTurned_refl (fun _ => not_mem_nil) 0 _
  | cons kind kinds ih =>
    obtain ⟨fs', _, hturn, h⟩ := bind_ok h
    have hhad : (fun k => (some kind).all (· == k) = true ∨ k ∈ kinds) = (· ∈ kind :: kinds) := by
      funext k
      rw [mem_cons, eq_comm (a := k)]
      simp
    rw [← hhad]
    exact (allTurned_of_turn hturn).trans (ih h)

/-- Whether the directives of a kind have a turn: if no kind has one, all have the same. -/
def HasTurn (s : Setting) (kind : String) : Prop := s.sequence = [] ∨ kind ∈ s.sequence

theorem allTurned_of_turns (h : (turns s actions fs).run d = (.ok gs, d')) : AllTurned s actions (HasTurn s) 0 fs gs := by
  rw [turns] at h
  split_ifs at h with hempty
  · have hhad : (fun k => (none : Option String).all (· == k) = true) = HasTurn s := by
      funext k
      simp [HasTurn, isEmpty_iff.1 hempty]
    rw [← hhad]
    exact allTurned_of_turn h
  · have hhad : (· ∈ s.sequence) = HasTurn s := by
      funext k
      simp [HasTurn, isEmpty_iff.not.1 hempty]
    rw [← hhad]
    exact allTurned_of_foldlM h

/-! ## Pieces -/

def pieceOf : Fragment → Option String
  | .text t => some t
  | _ => none

theorem joinTexts_eq (fs : List Fragment) : joinTexts fs = String.join ((fs.map pieceOf).filterMap id) := by
  rw [joinTexts]
  induction fs with
  | nil => rfl
  | cons f fs ih =>
    rw [map_cons, String.join_cons, ih]
    cases f with
    | text t => exact String.join_cons.symm
    | span x => exact String.empty_append
    | directive x => exact String.empty_append

/-- What a fragment contributes: a stretch its characters, and a directive what stands for it, unless its kind has no
turn. -/
inductive Contributes (s : Setting) (n : Node) (content : String) : Fragment × Nat → Option String → Prop where
  | span (x : Span) (place : Nat) :
      Contributes s n content (.span x, place) (some (String.ofList (x.of content.toList)))
  | text (t : String) (place : Nat) : Contributes s n content (.text t, place) (some t)
  | directive {c : Call} {d d' : Desk} : HasTurn s c.directive.kind → Made s n.children c d d' →
      Contributes s n content (.directive c.directive, c.place) (some c.text)
  | nothing {x : Directive} {place : Nat} : ¬ HasTurn s x.kind → Contributes s n content (.directive x, place) none

theorem mem_directivesFrom_of_mem_zipIdx {x : Directive} {p : Nat} (h : (.directive x, p) ∈ fs.zipIdx place) : (p, x) ∈ directivesFrom place fs := by
  induction fs generalizing place with
  | nil => cases h
  | cons f fs ih =>
    rcases mem_cons.1 h with heq | hrest
    · cases heq
      exact mem_cons_self
    · cases f with
      | directive y => exact mem_cons_of_mem _ (ih hrest)
      | span y => exact ih hrest
      | text t => exact ih hrest

theorem contributes_of_turned {fragments : List Fragment} {content : String} (hn : Planned s.registry levels n)
    (hdoc : n.document = some fragments)
    (h : AllTurned s (compileAll s n.children) (HasTurn s) 0 (withTexts content.toList fragments) gs) :
    List.Forall₂ (Contributes s n content) fragments.zipIdx (gs.map pieceOf) := by
  rw [AllTurned, withTexts, zipIdx_map, forall₂_map_left_iff] at h
  have hplaces : ∀ f ∈ fragments.zipIdx, ∀ x, f.1 = .directive x → (f.2, x) ∈ directivesFrom 0 fragments := by
    rintro ⟨f, place⟩ hf x rfl
    exact mem_directivesFrom_of_mem_zipIdx hf
  rw [forall₂_map_right_iff]
  refine ((forall₂_and_left _ _).2 ⟨hplaces, h⟩).imp ?_
  rintro ⟨f, place⟩ g ⟨hplace, hg⟩
  cases f with
  | span x =>
    cases hg
    exact .span x place
  | text t =>
    cases hg
    exact .text t place
  | directive x =>
    cases hg with
    | still hstill => exact .nothing (hstill x rfl)
    | replaced hhad hstands => exact .directive hhad (made_of_standsIn hn hdoc (hplace _ rfl) hstands)

def Accounted (s : Setting) (n : Node) (fragments : List Fragment) (d : Desk) (text : String) : Prop :=
  ∃ content start pieces, (readFile n.directive.source).run d = (.ok (some content, []), start) ∧
    List.Forall₂ (Contributes s n content) fragments.zipIdx pieces ∧
    text = String.join (pieces.filterMap id)

theorem accounted_of_compileDocument {fragments : List Fragment} {text : String}
    (hn : Planned s.registry levels n) (hdoc : n.document = some fragments)
    (h : (compileDocument s (compileAll s n.children) n.directive.source fragments).run d = (.ok text, d')) : Accounted s n fragments d text := by
  obtain ⟨⟨found, errors⟩, start, hread, h⟩ := bind_ok h
  split at h
  · rename_i content heq
    cases heq
    obtain ⟨gs, _, hturns, h⟩ := bind_ok h
    obtain ⟨rfl, -⟩ := pure_ok h
    have hpieces := contributes_of_turned hn hdoc (allTurned_of_turns hturns)
    exact ⟨content, start, _, hread, hpieces, joinTexts_eq gs⟩
  · cases h

/-! ## Whole plans -/

variable {config : Config} {r : Registry}

theorem leaves_acceptAll_showErrors (errors : List Status) : Leaves Desk.acceptAll (showErrors config errors) := by
  refine .bind moves_get fun _ => ?_
  split
  · refine .bind (moves_forIn (fun _ => moves_report fun _ => ?_) _) fun _ => moves_pure _
    rfl
  · exact moves_pure _

/-- Why a plan is not compiled although all errors are accepted: no document, a fatal error, or no plugin for its
root. -/
def HeldBack (r : Registry) (root : Node) : Prop :=
  root.document = none ∨ root.failures.any (·.level == .fatal) = true ∨ r.find? root.directive.kind = none

theorem compileRoot_ok {text : String}
    (h : (compileRoot config r compiledDir root).run d = (.ok text, d')) :
    text = "" ∧ HeldBack r root ∨ ∃ p d₁, r.find? root.directive.kind = some p ∧
      (compileNode (settingOf config r compiledDir root) root p []).run d₁ = (.ok text, d') := by
  rw [compileRoot] at h
  split at h
  · rename_i hp
    exact .inl ⟨(pure_ok h).1, .inr (.inr hp)⟩
  · rename_i p hp
    exact .inr ⟨p, _, hp, h⟩

theorem compilePlan_ok {text : String} (hacc : d.acceptAll = true)
    (h : (compilePlan config r compiledDir root).run d = (.ok text, d')) :
    text = "" ∧ HeldBack r root ∨ ∃ p d₁, r.find? root.directive.kind = some p ∧
      (compileNode (settingOf config r compiledDir root) root p []).run d₁ = (.ok text, d') := by
  rw [compilePlan] at h
  split at h
  · rename_i hnone
    obtain ⟨_, _, -, h⟩ := bind_ok h
    exact .inl ⟨(pure_ok h).1, .inl (by simpa using hnone)⟩
  · dsimp only at h
    split at h
    · obtain ⟨_, d₁, hshow, h⟩ := bind_ok h
      obtain ⟨goes, d₂, hgoes, h⟩ := bind_ok h
      have hacc₁ : d₁.acceptAll = true := ((leaves_acceptAll_showErrors _).view_eq hshow).trans hacc
      rw [goesOn] at hgoes
      split at hgoes
      · rename_i hfatal
        cases hgoes
        exact .inl ⟨(pure_ok h).1, .inr (.inl hfatal)⟩
      · rw [run_bind_of_ok (run_get d₁), if_pos hacc₁] at hgoes
        cases hgoes
        exact compileRoot_ok h
    · exact compileRoot_ok h

theorem hasTurn_iff : HasTurn (settingOf config r compiledDir root) kind ↔
      r.plugins = [] ∨ ∃ e ∈ r.plugins, e.2.kind = kind := by
  have hempty : r.sequence config.sequence = [] ↔ r.plugins = [] := by
    rw [eq_nil_iff_forall_not_mem, eq_nil_iff_forall_not_mem]
    refine ⟨fun h e he => h _ (Registry.mem_sequence _ he), fun h kind hkind => ?_⟩
    obtain ⟨e, he, -⟩ := (Registry.mem_sequence_iff _).1 hkind
    exact h e he
  exact or_congr hempty (Registry.mem_sequence_iff _)

/-- A plan that is compiled with all errors accepted is written by the plugin of its root, and every document in it is
made of the pieces of its fragments. A directive contributes a text if its kind has a turn, and nothing otherwise. -/
theorem compilePlan_contributions {compiledDir path text : String} {root : Node} {d₀ d₁ d d' : Desk}
    (hroot : (planFile config r path).run d₀ = (.ok root, d₁)) (hacc : d.acceptAll = true)
    (h : (compilePlan config r compiledDir root).run d = (.ok text, d')) :
    let s := settingOf config r compiledDir root
    (text = "" ∧ HeldBack r root ∨ ∃ p start, r.find? root.directive.kind = some p ∧
      (compileNode s root p []).run start = (.ok text, d')) ∧
    (∀ kind, HasTurn s kind ↔ r.plugins = [] ∨ ∃ e ∈ r.plugins, e.2.kind = kind) ∧
    ∀ k n fragments e t e', root.AtDepth k n → n.document = some fragments →
      (compileDocument s (compileAll s n.children) n.directive.source fragments).run e = (.ok t, e') →
      Accounted s n fragments e t := by
  refine ⟨compilePlan_ok hacc h, fun _ => hasTurn_iff, fun k n fragments e t e' hn hdoc hrun => ?_⟩
  obtain ⟨levels, -, hplanned⟩ := (planFile_ok hroot).atDepth hn
  exact accounted_of_compileDocument hplanned hdoc hrun

/-! ### A directive that no plugin handles -/

namespace Unknown

def text : String := "before\n```yaml embedm\ntype: nope\n```\nafter\n"

def desk : Desk := { Sole.desk text with acceptAll := true }

theorem compiled : ∃ root fragments d₁ d',
    (planFile {} Greeting.registry "a.md").run desk = (.ok root, d₁) ∧ d₁.acceptAll = true ∧
    root.document = some fragments ∧ (∃ x ∈ directivesFrom 0 fragments, x.2.kind = "nope") ∧
    (compilePlan {} Greeting.registry "" root).run d₁ = (.ok "before\nafter\n", d') := by
  have hcomes : Comes (planFile {} Greeting.registry "a.md") desk fun root d => d.acceptAll = true ∧
      (∃ fragments ∈ root.document, ∃ x ∈ directivesFrom 0 fragments, x.2.kind = "nope") ∧
      Comes (compilePlan {} Greeting.registry "" root) d fun text _ => text = "before\nafter\n" := by
    decide +kernel
  obtain ⟨root, d₁, hroot, hacc, ⟨fragments, hdoc, hx⟩, hcomp⟩ := hcomes.exists
  obtain ⟨_, d', hrun, rfl⟩ := hcomp.exists
  exact ⟨root, fragments, d₁, d', hroot, hacc, hdoc, hx, hrun⟩

end Unknown

/-- The directive has no plugin, and it leaves no note. -/
theorem unknown_contributes_nothing : ∃ root fragments d₁ d',
    (planFile {} Greeting.registry "a.md").run Unknown.desk = (.ok root, d₁) ∧ d₁.acceptAll = true ∧
    root.document = some fragments ∧ (∃ x ∈ directivesFrom 0 fragments, x.2.kind = "nope") ∧
    Greeting.registry.find? "nope" = none ∧
    (compilePlan {} Greeting.registry "" root).run d₁ = (.ok "before\nafter\n", d') ∧
    "before\nafter\n" ≠ "before\n" ++ Embed.errorNote [noPlugin "nope"] ++ "after\n" := by
  obtain ⟨root, fragments, d₁, d', hroot, hacc, hdoc, hx, hrun⟩ := Unknown.compiled
  exact ⟨root, fragments, d₁, d', hroot, hacc, hdoc, hx, rfl, hrun, by decide⟩

/-- The document is planned and compiled, and each of its fragments is accounted for. -/
theorem unknown_contributions : ∃ root text d₁ d',
    (planFile {} Greeting.registry "a.md").run Unknown.desk = (.ok root, d₁) ∧ d₁.acceptAll = true ∧
    (compilePlan {} Greeting.registry "" root).run d₁ = (.ok text, d') ∧
    ∀ fragments e t e', root.document = some fragments → (compileDocument (settingOf {} Greeting.registry "" root)
        (compileAll (settingOf {} Greeting.registry "" root) root.children) root.directive.source
        fragments).run e = (.ok t, e') →
      Accounted (settingOf {} Greeting.registry "" root) root fragments e t := by
  obtain ⟨root, -, d₁, d', hroot, hacc, -, -, hrun⟩ := Unknown.compiled
  refine ⟨root, _, d₁, d', hroot, hacc, hrun, fun fragments e t e' hdoc h => ?_⟩
  exact (compilePlan_contributions hroot hacc hrun).2.2 0 root fragments e t e' .root hdoc h

end Compile

end Transclude
