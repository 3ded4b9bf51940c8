import Mathlib.Data.List.Nodup
import Transclude.Proofs.Planning

/-!
# The turns of a document

Compiling a document goes through the kinds of directives. In the turn of a kind its directives are compiled in order,
each once, and all of them see the document as the turns before left it (`compileDocument_passes`).
-/

namespace Transclude

open List

variable {kinds : List String} {kind : String} {cs : List Call} {c : Call}

/-! ## The order of the kinds -/

namespace Registry

variable {r : Registry}

theorem nodup_addModule (h : kinds.Nodup) (module : Value) : (r.addModule kinds module).Nodup := by
  rw [addModule]
  split
  · rename_i e he
    have hnew := List.find?_some he
    simp only [Bool.and_eq_true, Bool.not_eq_true', contains_eq_mem, decide_eq_false_iff_not] at hnew
    exact List.Nodup.append h (nodup_singleton _) (by simpa using hnew.2)
  · exact h

theorem nodup_addKinds (h : kinds.Nodup) (plugins : List (String × Plugin)) :
    (plugins.foldl (fun kinds e => if kinds.contains e.2.kind then kinds else kinds ++ [e.2.kind])
      kinds).Nodup := by
  induction plugins generalizing kinds with
  | nil => exact h
  | cons e plugins ih =>
    rw [foldl_cons]
    refine ih ?_
    split
    · exact h
    · rename_i hnew
      exact List.Nodup.append h (nodup_singleton _) (by simpa using hnew)

theorem mem_addKinds_iff {plugins : List (String × Plugin)} :
    kind ∈ plugins.foldl (fun kinds e => if kinds.contains e.2.kind then kinds else kinds ++ [e.2.kind]) kinds ↔
      kind ∈ kinds ∨ ∃ e ∈ plugins, e.2.kind = kind := by
  induction plugins generalizing kinds with
  | nil => simp
  | cons e plugins ih =>
    rw [foldl_cons, ih, exists_mem_cons_iff, ← or_assoc]
    refine or_congr_left ?_
    split
    · rename_i hold
      exact (or_iff_left_of_imp fun h => h ▸ contains_iff_mem.1 hold).symm
    · rw [mem_append, mem_singleton, eq_comm]

theorem nodup_sequence (r : Registry) (modules : List Value) : (r.sequence modules).Nodup := by
  have hfirst : (modules.foldl r.addModule []).Nodup := by
    suffices ∀ kinds : List String, kinds.Nodup → (modules.foldl r.addModule kinds).Nodup from
      this [] nodup_nil
    intro kinds h
    induction modules generalizing kinds with
    | nil => exact h
    | cons m modules ih => exact ih _ (nodup_addModule h m)
  exact nodup_addKinds hfirst r.plugins

theorem mem_sequence {e : String × Plugin} (modules : List Value) (h : e ∈ r.plugins) : e.2.kind ∈ r.sequence modules :=
  mem_addKinds_iff.2 (.inr ⟨e, h, rfl⟩)

end Registry

namespace Compile

open Plan Work

/-! ## Documents with some directives replaced -/

/-- A document in which the directives of some kinds have given way to texts, by place. -/
def replaced (kinds : List String) (out : Nat → String) (place : Nat) : List Fragment → List Fragment
  | [] => []
  | .directive d :: rest =>
    (if kinds.contains d.kind then .text (out place) else .directive d) :: replaced kinds out (place + 1) rest
  | f :: rest => f :: replaced kinds out (place + 1) rest

def rendered (content : List Char) (kinds : List String) (out : Nat → String) (place : Nat) :
    List Fragment → List String
  | [] => []
  | .span x :: rest => String.ofList (x.of content) :: rendered content kinds out (place + 1) rest
  | .text t :: rest => t :: rendered content kinds out (place + 1) rest
  | .directive d :: rest =>
    (if kinds.contains d.kind then out place else "") :: rendered content kinds out (place + 1) rest

section Replaced

variable {kinds : List String} {out : Nat → String}

theorem replaced_nil (place : Nat) (fs : List Fragment) : replaced [] out place fs = fs := by
  induction fs generalizing place with
  | nil => rfl
  | cons f fs ih => cases f <;> simp [replaced, ih]

theorem replaced_replaced (kind : String) (place : Nat) (fs : List Fragment) :
    replaced [kind] out place (replaced kinds out place fs) = replaced (kinds ++ [kind]) out place fs := by
  induction fs generalizing place with
  | nil => rfl
  | cons f fs ih =>
    cases f with
    | directive d =>
      by_cases h : d.kind ∈ kinds
      · simp [replaced, h, ih]
      · by_cases hk : d.kind = kind
        · simp [replaced, h, ih]
        · simp [replaced, h, hk, ih]
    | span _ => simp [replaced, ih]
    | text _ => simp [replaced, ih]

theorem joinTexts_replaced (content : List Char) (place : Nat) (fs : List Fragment) :
    joinTexts (replaced kinds out place (withTexts content fs)) =
      String.join (rendered content kinds out place fs) := by
  rw [joinTexts]
  induction fs generalizing place with
  | nil => rfl
  | cons f fs ih =>
    cases f with
    | directive d =>
      by_cases h : d.kind ∈ kinds
      · simpa [withTexts, replaced, rendered, h] using ih (place + 1)
      · simpa [withTexts, replaced, rendered, h] using ih (place + 1)
    | span x => simpa [withTexts, replaced, rendered] using ih (place + 1)
    | text t => simpa [withTexts, replaced, rendered] using ih (place + 1)

theorem directivesFrom_withTexts (content : List Char) (place : Nat) (fs : List Fragment) :
    directivesFrom place (withTexts content fs) = directivesFrom place fs := by
  induction fs generalizing place with
  | nil => rfl
  | cons f fs ih => cases f <;> simpa [withTexts, directivesFrom] using ih (place + 1)

end Replaced

/-! ## Calls -/

structure Call where
  place : Nat
  directive : Directive
  parent : List Fragment
  text : String

def Call.label (c : Call) : Placed := (c.place, c.directive)

inductive Calls (step : Call → Desk → Desk → Prop) : Desk → List Call → Desk → Prop where
  | nil (d : Desk) : Calls step d [] d
  | cons {c : Call} {cs : List Call} {d d₁ d₂ : Desk} : step c d d₁ → Calls step d₁ cs d₂ → Calls step d (c :: cs) d₂

theorem Calls.append {step : Call → Desk → Desk → Prop} {cs' : List Call} {d d₁ d₂ : Desk} (h : Calls step d cs d₁)
    (h' : Calls step d₁ cs' d₂) : Calls step d (cs ++ cs') d₂ := by
  induction h with
  | nil => exact h'
  | cons hc _ ih => exact .cons hc (ih h')

theorem Calls.mono {step step' : Call → Desk → Desk → Prop} {d d' : Desk} (h : Calls step d cs d')
    (hstep : ∀ c ∈ cs, ∀ d d', step c d d' → step' c d d') : Calls step' d cs d' := by
  induction h with
  | nil => exact .nil _
  | cons hc _ ih => exact .cons (hstep _ mem_cons_self _ _ hc) (ih fun c hc => hstep c (mem_cons_of_mem _ hc))

def StandsIn (s : Setting) (actions : List (Nat × Action)) (c : Call) (d d' : Desk) : Prop :=
  (standIn s actions c.parent c.place c.directive).run d = (.ok c.text, d')

variable {s : Setting} {actions : List (Nat × Action)} {fs gs : List Fragment} {d d' : Desk}

theorem turn_ok {parent : List Fragment} {place : Nat}
    (h : (turn s actions parent (some kind) place fs).run d = (.ok gs, d')) :
    ∃ cs, Calls (StandsIn s actions) d cs d' ∧
      cs.map Call.label = (directivesFrom place fs).filter (fun x => x.2.kind == kind) ∧
      (∀ c ∈ cs, c.parent = parent) ∧
      directivesFrom place gs = (directivesFrom place fs).filter (fun x => x.2.kind != kind) ∧
      ∀ out : Nat → String, (∀ c ∈ cs, out c.place = c.text) → gs = replaced [kind] out place fs := by
  induction fs generalizing place gs d with
  | nil =>
    cases h
    exact ⟨[], .nil _, rfl, by simp, rfl, fun _ _ => rfl⟩
  | cons f fs ih =>
    cases f with
    | text t =>
      obtain ⟨hs, _, h', h⟩ := bind_ok h
      cases h
      obtain ⟨cs, hcalls, hlabels, hparent, hdirs, hout⟩ := ih h'
      exact ⟨cs, hcalls, hlabels, hparent, hdirs, fun out ho => by rw [hout out ho]; rfl⟩
    | span x =>
      obtain ⟨hs, _, h', h⟩ := bind_ok h
      cases h
      obtain ⟨cs, hcalls, hlabels, hparent, hdirs, hout⟩ := ih h'
      exact ⟨cs, hcalls, hlabels, hparent, hdirs, fun out ho => by rw [hout out ho]; rfl⟩
    | directive x =>
      rw [turn] at h
      by_cases hk : x.kind = kind
      · rw [if_pos (by simp [hk])] at h
        obtain ⟨f, _, hf, h⟩ := bind_ok h
        obtain ⟨t, ht, rfl⟩ := map_ok hf
        obtain ⟨hs, _, h', h⟩ := bind_ok h
        cases h
        obtain ⟨cs, hcalls, hlabels, hparent, hdirs, hout⟩ := ih h'
        refine ⟨⟨place, x, parent, t⟩ :: cs, .cons ht hcalls, ?_, ?_, ?_, fun out ho => ?_⟩
        · simp [directivesFrom, hk, hlabels, Call.label]
        · simpa using hparent
        · simpa [directivesFrom, hk] using hdirs
        · rw [forall_mem_cons] at ho
          simp [replaced, hk, hout out ho.2, ho.1]
      · rw [if_neg (by simpa using Ne.symm hk)] at h
        obtain ⟨f, _, hf, h⟩ := bind_ok h
        cases hf
        obtain ⟨hs, _, h', h⟩ := bind_ok h
        cases h
        obtain ⟨cs, hcalls, hlabels, hparent, hdirs, hout⟩ := ih h'
        refine ⟨cs, hcalls, ?_, hparent, ?_, fun out ho => ?_⟩
        · simp [directivesFrom, hk, hlabels]
        · simp [directivesFrom, hk, hdirs]
        · simp [replaced, hk, hout out ho]

def ofKind (fs : List Fragment) (kind : String) : List Placed := (directivesFrom 0 fs).filter fun x => x.2.kind == kind

theorem kind_of_mem_ofKind {x : Placed} (h : x ∈ ofKind fs kind) : x.2.kind = kind :=
  beq_iff_eq.1 (mem_filter.1 h).2

/-- The turns of the kinds that are left, after those of `done`; the texts so far are those of the calls `earlier`. -/
theorem passes_ok {base : List Fragment} {done todo : List String} {earlier : List Call}
    (hnodup : (done ++ todo).Nodup)
    (hdirs : directivesFrom 0 fs = (directivesFrom 0 base).filter fun x => !done.contains x.2.kind)
    (hfs : ∀ out : Nat → String, (∀ c ∈ earlier, out c.place = c.text) → fs = replaced done out 0 base)
    (h : (todo.foldlM (fun fs kind => turn s actions fs (some kind) 0 fs) fs).run d = (.ok gs, d')) :
    ∃ cs, Calls (StandsIn s actions) d cs d' ∧ cs.map Call.label = todo.flatMap (ofKind base) ∧
      ∀ out : Nat → String, (∀ c ∈ earlier ++ cs, out c.place = c.text) → gs = replaced (done ++ todo) out 0 base ∧
        ∀ c ∈ cs, c.parent = replaced (done ++ todo.takeWhile (· != c.directive.kind)) out 0 base := by
  induction todo generalizing done fs earlier d with
  | nil =>
    cases h
    refine ⟨[], .nil _, rfl, fun out ho => ⟨?_, by simp⟩⟩
    rw [append_nil] at ho ⊢
    exact hfs out ho
  | cons kind todo ih =>
    obtain ⟨fs', _, hturn, h⟩ := bind_ok h
    obtain ⟨cs, hcalls, hlabels, hparent, hdirs', hout⟩ := turn_ok hturn
    have hnew : kind ∉ done := by
      have := (nodup_append.1 hnodup).2.2
      exact fun hk => this kind hk kind mem_cons_self rfl
    have hlater : kind ∉ todo := (nodup_cons.1 (nodup_append.1 hnodup).2.1).1
    have hlabels : cs.map Call.label = ofKind base kind := by
      rw [hlabels, hdirs, filter_filter]
      refine filter_congr fun x _ => ?_
      by_cases hk : x.2.kind = kind
      · simp [hk, hnew]
      · simp [hk]
    have hnodup' : (done ++ [kind] ++ todo).Nodup := by simpa using hnodup
    have hleft : directivesFrom 0 fs' =
        (directivesFrom 0 base).filter fun x => !(done ++ [kind]).contains x.2.kind := by
      rw [hdirs', hdirs, filter_filter]
      refine filter_congr fun x _ => ?_
      by_cases hk : x.2.kind = kind <;> simp [hk]
    have hfs' : ∀ out : Nat → String, (∀ c ∈ earlier ++ cs, out c.place = c.text) →
        fs' = replaced (done ++ [kind]) out 0 base := by
      intro out ho
      rw [forall_mem_append] at ho
      rw [hout out ho.2, hfs out ho.1, replaced_replaced]
    obtain ⟨cs', hcalls', hlabels', hrest⟩ := ih hnodup' hleft hfs' h
    refine ⟨cs ++ cs', hcalls.append hcalls', ?_, fun out ho => ?_⟩
    · rw [map_append, hlabels, hlabels', flatMap_cons]
    obtain ⟨hgs, hparents⟩ := hrest out (by simpa using ho)
    refine ⟨by simpa using hgs, fun c hc => ?_⟩
    rcases mem_append.1 hc with hc | hc
    · -- a call of this turn sees the document before the turn
      have hk : c.directive.kind = kind := kind_of_mem_ofKind (hlabels ▸ mem_map_of_mem (f := Call.label) hc)
      rw [hparent c hc, hk, takeWhile_cons_of_neg (by simp), append_nil]
      exact hfs out fun c hc => ho c (mem_append_left _ hc)
    · -- a later call is of another kind
      have hk : c.directive.kind ≠ kind := by
        have hmem := hlabels' ▸ mem_map_of_mem (f := Call.label) hc
        obtain ⟨later, hl, hmem⟩ := mem_flatMap.1 hmem
        rw [show c.directive.kind = later from kind_of_mem_ofKind hmem]
        exact fun e => hlater (e ▸ hl)
      rw [hparents c hc, takeWhile_cons_of_pos (by simpa using hk.symm)]
      simp

theorem nodup_places_ofKind (base : List Fragment) (h : kinds.Nodup) :
    ((kinds.flatMap (ofKind base)).map (·.1)).Nodup := by
  have hplaces := Plan.nodup_places 0 base
  have hflat : (kinds.flatMap (ofKind base)).Nodup := by
    refine nodup_flatMap.2 ⟨fun kind _ => ?_, ?_⟩
    · exact (List.Nodup.of_map _ hplaces).filter _
    · refine h.imp fun hne x hx hy => hne ?_
      rw [← kind_of_mem_ofKind hx, ← kind_of_mem_ofKind hy]
  refine hflat.map_on fun x hx y hy hxy => ?_
  obtain ⟨_, -, hx⟩ := mem_flatMap.1 hx
  obtain ⟨_, -, hy⟩ := mem_flatMap.1 hy
  exact inj_on_of_nodup_map hplaces (mem_filter.1 hx).1 (mem_filter.1 hy).1 hxy

def textsOf (cs : List Call) (place : Nat) : String := ((cs.find? (·.place == place)).map (·.text)).getD ""

theorem textsOf_eq (h : (cs.map (·.place)).Nodup) (hc : c ∈ cs) : textsOf cs c.place = c.text := by
  induction cs with
  | nil => cases hc
  | cons c' cs ih =>
    obtain ⟨hnew, h⟩ := nodup_cons.1 h
    rw [textsOf, List.find?_cons]
    rcases mem_cons.1 hc with rfl | hc
    · simp
    · have hne : c'.place ≠ c.place := fun e => hnew (mem_map.2 ⟨c, hc, e.symm⟩)
      rw [beq_false_of_ne hne]
      exact ih h hc

theorem turns_ok {base : List Fragment} (hnodup : s.sequence.Nodup)
    (hne : s.sequence ≠ []) (h : (turns s actions base).run d = (.ok gs, d')) :
    ∃ cs out, Calls (StandsIn s actions) d cs d' ∧ cs.map Call.label = s.sequence.flatMap (ofKind base) ∧
      (∀ c ∈ cs, out c.place = c.text) ∧
      (∀ c ∈ cs, c.parent = replaced (s.sequence.takeWhile (· != c.directive.kind)) out 0 base) ∧
      gs = replaced s.sequence out 0 base := by
  rw [turns, if_neg (by simpa using hne)] at h
  have hleft : directivesFrom 0 base =
      (directivesFrom 0 base).filter fun x => !([] : List String).contains x.2.kind := by
    simp
  have hbase : ∀ out : Nat → String, (∀ c ∈ ([] : List Call), out c.place = c.text) → base = replaced [] out 0 base :=
    fun out _ => (replaced_nil 0 base).symm
  obtain ⟨cs, hcalls, hlabels, hall⟩ := passes_ok (show ([] ++ s.sequence).Nodup from hnodup) hleft hbase h
  have hplaces : (cs.map (·.place)).Nodup := by
    have := nodup_places_ofKind base hnodup
    rwa [← hlabels, map_map] at this
  have hout : ∀ c ∈ cs, textsOf cs c.place = c.text := fun c hc => textsOf_eq hplaces hc
  obtain ⟨hgs, hparents⟩ := hall (textsOf cs) hout
  exact ⟨cs, textsOf cs, hcalls, hlabels, hout, hparents, hgs⟩

/-! ## What a call gives -/

def cut (s : Setting) (text : String) : String :=
  if s.maxEmbed.value > 0 && (text.length : Int) > s.maxEmbed.value then
    Embed.errorNote [tooLong s.maxEmbed]
  else text

/-- How the text of a call comes about: a note of errors, or what the plugin makes of it, unless it has none. -/
inductive Made (s : Setting) (children : List Node) (c : Call) (d : Desk) : Desk → Prop where
  | failed {p : Plugin} {n : Node} : s.registry.find? c.directive.kind = some p →
      n ∈ children → n.label = c.label → n.document = none →
      n.status.filter (·.isFailure) ≠ [] →
      c.text = Embed.errorNote ((n.status.filter (·.isFailure)).map (·.text)) →
      Made s children c d d
  | output {p : Plugin} {n : Node} {text : String} {d₁ d₂ : Desk} : s.registry.find? c.directive.kind = some p →
      n ∈ children → n.label = c.label → (n.document = none → n.status.filter (·.isFailure) = []) →
      (compileNode s n p c.parent).run d = (.ok text, d₁) → (advance s).run d₁ = (.ok (), d₂) →
      c.text = cut s text →
      Made s children c d d₂
  | unknown : s.registry.find? c.directive.kind = none → c.text = Embed.errorNote [noPlugin c.directive.kind] →
      Made s children c d d

theorem limited_ok {made : Work String} {text : String} (h : (limited s made).run d = (.ok text, d')) :
    ∃ t d₁, made.run d = (.ok t, d₁) ∧ (advance s).run d₁ = (.ok (), d') ∧ text = cut s t := by
  obtain ⟨t, d₁, hmade, h⟩ := bind_ok h
  obtain ⟨⟨⟩, d₂, hadvance, h⟩ := bind_ok h
  have hcut : (pure (cut s t) : Work String).run d₂ = (.ok text, d') := by
    rw [← h]
    unfold cut
    split_ifs <;> rfl
  cases hcut
  exact ⟨t, d₁, hmade, hadvance, rfl⟩

theorem made_of_standsIn {levels : Nat} {n : Node} {fragments : List Fragment}
    (hn : Planned s.registry levels n) (hdoc : n.document = some fragments)
    (hc : c.label ∈ directivesFrom 0 fragments) (h : StandsIn s (compileAll s n.children) c d d') : Made s n.children c d d' := by
  rw [StandsIn, standIn] at h
  cases hp : s.registry.find? c.directive.kind with
  | none =>
    simp only [hp] at h
    obtain ⟨ht, rfl⟩ := pure_ok h
    exact .unknown hp ht
  | some p =>
    have hwanted : c.label ∈ wanted s.registry fragments := mem_filter.2 ⟨hc, by simp [Call.label, hp]⟩
    obtain ⟨child, hchild, hlabel, hlookup⟩ := hn.exists_child hdoc hwanted s
    simp only [hp, show (compileAll s n.children).lookup c.place = _ from hlookup] at h
    simp only [actionOf] at h
    split_ifs at h with hfailed
    · obtain ⟨ht, rfl⟩ := pure_ok h
      rw [Bool.and_eq_true] at hfailed
      exact .failed hp hchild hlabel (by simpa using hfailed.1) (by simpa using hfailed.2) ht
    · obtain ⟨t, d₁, hmade, hadvance, ht⟩ := limited_ok h
      refine .output hp hchild hlabel (fun hnone => ?_) hmade hadvance ht
      simpa [hnone] using hfailed

/-! ## Whole documents -/

/-- A document compiled in turns: each directive has one call, in the turn of its kind and in order, and the
directives of the kinds before have given way to their texts there. -/
def InTurns (s : Setting) (n : Node) (fragments : List Fragment) (d : Desk) (text : String) (d' : Desk) :
    Prop :=
  ∃ content start calls out, (readFile n.directive.source).run d = (.ok (some content, []), start) ∧
    Calls (Made s n.children) start calls d' ∧
    calls.map Call.label = s.sequence.flatMap (ofKind fragments) ∧
    (∀ c ∈ calls, out c.place = c.text) ∧
    (∀ c ∈ calls, c.parent = replaced (s.sequence.takeWhile (· != c.directive.kind)) out 0
      (withTexts content.toList fragments)) ∧
    text = String.join (rendered content.toList s.sequence out 0 fragments)

/-- Every document of a planned tree is compiled in turns, and each kind that has a plugin has one turn. -/
theorem compileDocument_passes {config : Config} {r : Registry} {compiledDir path : String} {root n : Node}
    {k : Nat} {fragments : List Fragment} {text : String} {d₀ d₁ d d' : Desk}
    (hindex : ∀ kind, (r.find? kind).isSome → ∃ e ∈ r.plugins, e.2.kind = kind)
    (hroot : (planFile config r path).run d₀ = (.ok root, d₁)) (hn : root.AtDepth k n)
    (hdoc : n.document = some fragments) (hkind : (r.find? n.directive.kind).isSome)
    (h : (compileDocument (settingOf config r compiledDir root)
      (compileAll (settingOf config r compiledDir root) n.children) n.directive.source fragments).run d =
        (.ok text, d')) :
    let s := settingOf config r compiledDir root
    s.sequence.Nodup ∧ (∀ kind, (r.find? kind).isSome → kind ∈ s.sequence) ∧ InTurns s n fragments d text d' := by
  intro s
  have hnodup : s.sequence.Nodup := r.nodup_sequence config.sequence
  have hmem : ∀ kind, (r.find? kind).isSome → kind ∈ s.sequence := by
    intro kind hk
    obtain ⟨e, he, rfl⟩ := hindex kind hk
    exact Registry.mem_sequence config.sequence he
  refine ⟨hnodup, hmem, ?_⟩
  obtain ⟨levels, -, hplanned⟩ := (planFile_ok hroot).atDepth hn
  obtain ⟨⟨found, errors⟩, start, hread, h⟩ := bind_ok h
  split at h
  · rename_i content heq
    cases heq
    obtain ⟨gs, d₂, hturns, h⟩ := bind_ok h
    obtain ⟨rfl, rfl⟩ := pure_ok h
    have hne : s.sequence ≠ [] := ne_nil_of_mem (hmem _ hkind)
    obtain ⟨cs, out, hcalls, hlabels, hout, hparents, hgs⟩ := turns_ok hnodup hne hturns
    have hkinds : ofKind (withTexts content.toList fragments) = ofKind fragments := by
      funext kind
      rw [ofKind, directivesFrom_withTexts, ofKind]
    rw [hkinds] at hlabels
    refine ⟨content, start, cs, out, hread, ?_, hlabels, hout, hparents, ?_⟩
    · refine hcalls.mono fun c hc d d' hstep => made_of_standsIn hplanned hdoc ?_ hstep
      obtain ⟨kind, -, hlabel⟩ := mem_flatMap.1 (hlabels ▸ mem_map_of_mem (f := Call.label) hc)
      exact (mem_filter.1 hlabel).1
    · rw [hgs, joinTexts_replaced]
  · cases h

/-! ### A table of contents above a greeting -/

namespace Greeting

def text : String := "# A\n```yaml embedm\ntype: toc\n```\n```yaml embedm\ntype: hello_world\n```\n"

def registry : Registry := (Registry.load {} Entry.standard none).1

theorem index (kind : String) (h : (registry.find? kind).isSome) : ∃ e ∈ registry.plugins, e.2.kind = kind := by
  have hkinds : registry.byKind = registry.plugins.map fun e => (e.2.kind, e.2) := rfl
  obtain ⟨p, hp⟩ := Option.isSome_iff_exists.1 h
  have hmem : (kind, p) ∈ registry.byKind := mem_of_lookup hp
  rw [hkinds] at hmem
  obtain ⟨e, he, hkind⟩ := mem_map.1 hmem
  exact ⟨e, he, (Prod.mk.inj hkind).1⟩

end Greeting

/-- The document is planned and compiled in turns. -/
theorem greeting_passes : ∃ root fragments text d₁ d',
    (planFile {} Greeting.registry "a.md").run (Sole.desk Greeting.text) = (.ok root, d₁) ∧
    root.document = some fragments ∧
    InTurns (settingOf {} Greeting.registry "" root) root fragments d₁ text d' := by
  have hcomes : Comes (planFile {} Greeting.registry "a.md") (Sole.desk Greeting.text) fun root d =>
      (Greeting.registry.find? root.directive.kind).isSome = true ∧ ∃ fragments ∈ root.document,
        Comes (compileDocument (settingOf {} Greeting.registry "" root)
          (compileAll (settingOf {} Greeting.registry "" root) root.children) root.directive.source fragments) d
          fun _ _ => True := by
    decide +kernel
  obtain ⟨root, d₁, hroot, hkind, fragments, hdoc, hcomp⟩ := hcomes.exists
  obtain ⟨text, d', hrun, -⟩ := hcomp.exists
  have hpass := compileDocument_passes Greeting.index hroot .root hdoc hkind hrun
  exact ⟨root, fragments, text, d₁, d', hroot, hdoc, hpass.2.2⟩

end Compile

end Transclude
