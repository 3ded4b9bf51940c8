import Transclude.Proofs.Contributions
import Transclude.Proofs.Folders
import Transclude.Proofs.Fragments
import Transclude.Proofs.Replays
import Transclude.Proofs.Scanning

/-!
# Embedded files in their fences

As long as the directives before it left whole lines and no open fence (`Tame`), a scan of the compiled document is at
a directive in the state that the document's own text gives it. A file in a fence is then sealed if and only if none
of its lines closes the fence and its closing marks do, with what follows them in their line
(`compilePlan_sealed_iff`).
-/

namespace Transclude

open List

variable {content compiledDir following : String} {n root : Node} {cs : List Char} {cwd : Path} {b : Block}
  {ps : List Piece} {markers : Markers} {config : Config} {d x : Directive} {offset k : Nat} {r : Registry}

/-! ## Pieces of a compiled document -/

namespace Outline

open Transclude.Text

inductive Piece where
  | own (text : List Char)
  | made (text : List Char)
deriving Repr, DecidableEq

namespace Piece

def text : Piece → List Char
  | own t => t
  | made t => t

def ownText : Piece → List Char
  | own t => t
  | made _ => []

end Piece

def textOf (ps : List Piece) : List Char := ps.flatMap Piece.text

def ownOf (ps : List Piece) : List Char := ps.flatMap Piece.ownText

theorem textOf_append (ps qs : List Piece) : textOf (ps ++ qs) = textOf ps ++ textOf qs := flatMap_append

theorem ownOf_append (ps qs : List Piece) : ownOf (ps ++ qs) = ownOf ps ++ ownOf qs := flatMap_append

def OwnOutside (ps : List Piece) : Prop :=
  ∀ before t after, ps = before ++ .made t :: after → (Fence.atEnd (ownOf before)).inside = false

theorem OwnOutside.left {qs : List Piece} (h : OwnOutside (ps ++ qs)) : OwnOutside ps := by
  rintro before t after rfl
  exact h before t (after ++ qs) (by simp)

structure Neutral (cs : List Char) : Prop where
  wholeLines : WholeLines cs
  outside : (Fence.atEnd cs).inside = false

/-- Pieces that leave a scan as the document's own text does: whole lines, with no fence open, made alone or with the
rest of a line. -/
inductive Tame : List Piece → Prop where
  | nil : Tame []
  | own {ps : List Piece} (t : List Char) : Tame ps → Tame (ps ++ [.own t])
  | whole {ps : List Piece} {t : List Char} : Tame ps → Neutral t → Tame (ps ++ [.made t])
  | ended {ps : List Piece} {t line : List Char} (rest : List Char) : Tame ps → Unbroken line →
      (marks line).length < 3 → Neutral (t ++ (line ++ ['\n'])) →
      Tame (ps ++ [.made t, .own (line ++ '\n' :: rest)])

theorem Neutral.after (h : Neutral cs) {f : Fence} (hf : f.inside = false) : (f.after (linesOf cs)).inside = false :=
  ((Fence.same_of_outside hf (rfl : Fence.start.inside = false)).after (linesOf cs)).1.trans h.outside

theorem after_linesOf_few {line : List Char} (hline : Unbroken line) (hfew : (marks line).length < 3) (f : Fence) :
    f.after (linesOf (line ++ ['\n'])) = f := by
  refine Fence.after_few ?_ f
  rw [linesOf_line hline]
  simpa using ⟨hfew, by decide⟩

theorem Tame.same (h : Tame ps) (hown : ∀ t, .own t ∈ ps → WholeLines t) (hout : OwnOutside ps) :
    WholeLines (textOf ps) ∧ WholeLines (ownOf ps) ∧ Fence.Same (Fence.atEnd (textOf ps)) (Fence.atEnd (ownOf ps)) := by
  induction h with
  | nil => exact ⟨.inl rfl, .inl rfl, rfl, fun _ => rfl⟩
  | @own ps t _ ih =>
    obtain ⟨htext, howns, hsame⟩ := ih (fun u hu => hown u (mem_append_left _ hu)) hout.left
    have ht : WholeLines t := hown t (by simp)
    rw [textOf_append, ownOf_append, show textOf [.own t] = t from append_nil t,
      show ownOf [.own t] = t from append_nil t, Fence.atEnd_append htext, Fence.atEnd_append howns]
    exact ⟨htext.append ht, howns.append ht, hsame.after _⟩
  | @whole ps t _ ht ih =>
    obtain ⟨htext, howns, hsame⟩ := ih (fun u hu => hown u (mem_append_left _ hu)) hout.left
    have houtside : (Fence.atEnd (ownOf ps)).inside = false := hout ps t [] rfl
    rw [textOf_append, ownOf_append, show textOf [.made t] = t from append_nil t,
      show ownOf [.made t] = [] from rfl, append_nil, Fence.atEnd_append htext]
    refine ⟨htext.append ht.wholeLines, howns, Fence.same_of_outside (ht.after ?_) houtside⟩
    rw [hsame.1, houtside]
  | @ended ps t line rest _ hline hfew ht ih =>
    obtain ⟨htext, howns, hsame⟩ := ih (fun u hu => hown u (mem_append_left _ hu)) hout.left
    have houtside : (Fence.atEnd (ownOf ps)).inside = false := hout ps t [.own (line ++ '\n' :: rest)] rfl
    have hrest : WholeLines rest := by
      have h := hown (line ++ '\n' :: rest) (by simp)
      rw [← singleton_append, ← append_assoc] at h
      exact h.right
    have htext₁ : WholeLines (textOf ps ++ (t ++ (line ++ ['\n']))) := htext.append ht.wholeLines
    have howns₁ : WholeLines (ownOf ps ++ (line ++ ['\n'])) := howns.append (wholeLines_concat line)
    have htextOf : textOf (ps ++ [.made t, .own (line ++ '\n' :: rest)]) =
        textOf ps ++ (t ++ (line ++ ['\n'])) ++ rest := by
      simp [textOf, Piece.text]
    have hownOf : ownOf (ps ++ [.made t, .own (line ++ '\n' :: rest)]) = ownOf ps ++ (line ++ ['\n']) ++ rest := by
      simp [ownOf, Piece.ownText]
    rw [htextOf, hownOf, Fence.atEnd_append htext₁, Fence.atEnd_append howns₁]
    refine ⟨htext₁.append hrest, howns₁.append hrest, Fence.Same.after ?_ _⟩
    rw [Fence.atEnd_append htext, Fence.atEnd_append howns, after_linesOf_few hline hfew]
    refine Fence.same_of_outside (ht.after ?_) houtside
    rw [hsame.1, houtside]

theorem Tame.fenced (h : Tame ps) {x : Fenced} (hx : x.Plain) (hclosed : x.Closed) {blanks : List Char}
    (hline : Unbroken blanks) (hblanks : allBlank blanks = true) (rest : List Char) :
    Tame (ps ++ [.made x.text, .own (blanks ++ '\n' :: rest)]) := by
  have hfew : (marks blanks).length < 3 := by
    rw [marks, trim_of_allBlank hblanks]
    decide
  have hfirst : firstLine (blanks ++ ['\n']) = blanks := by
    rw [firstLine, linesOf_line hline]
    rfl
  refine .ended rest h hline hfew ⟨?_, ?_⟩
  · rw [← append_assoc]
    exact wholeLines_concat _
  · have hstart : WholeLines ([] : List Char) := .inl rfl
    have hend := hx.atEnd_text hstart rfl hclosed (blanks ++ ['\n']) (by rw [hfirst]; exact closes_fence_append hblanks)
    rw [nil_append, linesOf_line hline] at hend
    rw [hend]
    rfl

end Outline

/-! ## Where directives stand -/

namespace Block

open Transclude.Text

variable {cs : List Char}

theorem beginsLine_of_firstFrom {rest : List Char} (h₀ : offset < cs.length → BeginsLine true cs offset)
    (h : firstFrom offset (cs.drop offset) = (.block b, rest)) : BeginsLine true cs b.start := by
  rw [firstFrom] at h
  split at h
  · cases h
  · rename_i opening ho
    split at h
    · cases h
    · cases h
      have ho := findFence_firstIn ho
      have hinside := ho.inside
      rw [length_drop] at hinside
      exact (beginsLine_drop_iff h₀ (by omega)).1 ho.beginsLine

theorem beginsLine_of_mem_allFrom (h₀ : offset < cs.length → BeginsLine true cs offset)
    (hb : b ∈ (allFrom offset (cs.drop offset)).blocks) : BeginsLine true cs b.start := by
  -- along the recursion of the scan, as for `allFrom_covers`
  induction hn : cs.length - offset using Nat.strongRecOn generalizing offset with
  | _ n ih =>
    rw [allFrom] at hb
    split at hb
    · cases hb
    · cases hb
    · rename_i c rest h
      rcases mem_cons.1 hb with rfl | hb
      · exact beginsLine_of_firstFrom h₀ h
      · obtain ⟨h₁, h₂, h₃, rfl, h₄⟩ := firstFrom_eq_block h
        exact ih (cs.length - c.stop) (by omega) h₄ hb rfl

theorem beginsLine_of_mem_all (hb : b ∈ (all cs).blocks) : BeginsLine true cs b.start :=
  have h₀ : 0 < cs.length → BeginsLine true cs 0 := fun _ => rfl
  beginsLine_of_mem_allFrom h₀ hb

theorem wholeLines_of_beginsLine {position stop : Nat} (hlt : position < stop) (h : BeginsLine true cs stop) :
    WholeLines ((cs.drop position).take (stop - position)) := by
  obtain ⟨k, rfl⟩ := Nat.exists_eq_add_of_lt hlt
  right
  rw [List.getLast?_take, if_neg (by omega), List.getElem?_drop,
    show position + (position + k + 1 - position - 1) = position + k by omega]
  rw [show cs[position + k]? = some '\n' from h]
  rfl

end Block

namespace Fragment

open Transclude.Text

def Apart (cs : List Char) (f g : Fragment) : Prop := ∀ s d, f = .span s → g = .directive d → WholeLines (s.of cs)

theorem apart_of_readings {position stop : Nat} {readings : List (Block × Except Refusal Directive)}
    (h : ∀ x ∈ readings, Block.BeginsLine true cs x.1.start) :
    ((Portion.list position stop readings).flatMap Portion.fragments).Pairwise (Apart cs) := by
  have hgap : ∀ a b, ((Portion.gap a b).flatMap Portion.fragments).Pairwise (Apart cs) := by
    intro a b
    rw [Portion.gap]
    split
    · exact pairwise_singleton ..
    · exact .nil
  induction readings generalizing position with
  | nil => exact hgap ..
  | cons x rest ih =>
    obtain ⟨b, reading⟩ := x
    obtain ⟨hb, hrest⟩ := forall_mem_cons.1 h
    rw [Portion.list, flatMap_append]
    refine pairwise_append.2 ⟨hgap .., pairwise_append.2 ⟨?_, ih hrest, ?_⟩, ?_⟩
    · cases reading with
      | ok d => exact pairwise_singleton ..
      | error r => exact .nil
    · -- a block leaves no stretch
      rintro f hf g - s d rfl -
      cases reading with
      | ok d => simp [Portion.fragments] at hf
      | error r => simp [Portion.fragments] at hf
    · rintro f hf g - s d rfl -
      rw [Portion.gap] at hf
      split at hf
      · rename_i hlt
        obtain rfl : s = ⟨position, b.start - position⟩ := by simpa [Portion.fragments] using hf
        exact Block.wholeLines_of_beginsLine hlt hb
      · cases hf

theorem apart_of_ofText {baseDir : String} {fragments : List Fragment} {refusals : List Refusal}
    (h : ofText cwd baseDir cs = .ok (fragments, refusals)) : fragments.Pairwise (Apart cs) := by
  obtain ⟨⟨found, _⟩, hfound, h⟩ := Except.of_bind_eq_ok h
  cases h
  rcases ofBlocks_eq_or cwd baseDir 0 ((Block.all cs).stop cs) (Block.all cs).blocks with
    ⟨_, _, _, _, he⟩ | ⟨readings, hr, -, he⟩
  · rw [he] at hfound
    cases hfound
  · rw [he] at hfound
    cases hfound
    refine apart_of_readings fun x hx => Block.beginsLine_of_mem_all ?_
    rw [← hr]
    exact mem_map_of_mem hx

end Fragment

namespace Plan

variable {r : Registry}

def modernized (r : Registry) : Fragment → Fragment
  | .directive d => .directive (r.modernize d).1
  | f => f

theorem modernizeAll_fst (r : Registry) (fragments : List Fragment) :
    (modernizeAll r fragments).1 = fragments.map (modernized r) := by
  induction fragments with
  | nil => rfl
  | cons f fragments ih => cases f <;> simp [modernizeAll, modernized, ih]

theorem apart_modernizeAll {fragments : List Fragment} (h : fragments.Pairwise (Fragment.Apart cs)) : (modernizeAll r fragments).1.Pairwise (Fragment.Apart cs) := by
  rw [modernizeAll_fst]
  refine h.map _ fun f g hfg s d hf hg => ?_
  cases f with
  | span x =>
    cases g with
    | directive y => exact hfg s y hf rfl
    | span y => cases hg
    | text t => cases hg
  | directive y => cases hf
  | text t => cases hf

theorem Grown.apart {desk : Desk} {s : Setting} {above : List String} {fragments : List Fragment}
    (h : Grown desk s above n) (hdoc : n.document = some fragments)
    (hreads : desk.reads n.directive.source = .ok (some content, [])) :
    fragments.Pairwise (Fragment.Apart content.toList) := by
  obtain ⟨found, written, hopened⟩ := h.exists_opened (by rw [hdoc]; rfl)
  obtain ⟨refusals, hcut⟩ := hopened.cut
  obtain rfl : content = found := by simpa using hreads.symm.trans hopened.reads
  obtain rfl : fragments = (modernizeAll s.registry written).1 :=
    Option.some.inj (hdoc.symm.trans hopened.document)
  exact apart_modernizeAll (Fragment.apart_of_ofText hcut)

end Plan

/-! ## What is embedded -/

namespace Embed

def languageOf (source : String) : String :=
  let ext := String.ofList ((extensionOf source).toList.dropWhile (· == '.'))
  if ext.isEmpty then "text" else ext

theorem inFence_eq (source content : String) :
    inFence source content = String.ofList Block.fence ++ languageOf source ++ "\n" ++ Text.stripEnd content ++ "\n" ++
      String.ofList Block.fence :=
  rfl

def fencedOf (cwd : Path) (compiledDir : String) (d : Directive) (content : String) : Outline.Fenced where
  top := (header cwd compiledDir d).toList
  name := (languageOf d.source).toList
  content := content.toList

theorem text_fencedOf (cwd : Path) (compiledDir : String) (d : Directive) (content : String) :
    (fencedOf cwd compiledDir d content).text = (header cwd compiledDir d ++ inFence d.source content).toList := by
  have hbreak : "\n".toList = ['\n'] := rfl
  simp only [inFence_eq, String.toList_append, String.toList_ofList, Text.stripEnd, hbreak, Outline.Fenced.text,
    Outline.Fenced.body, fencedOf, append_assoc, cons_append, nil_append]

theorem finish_ok {text : String} (hsrc : isMarkdown d.source = false)
    (h : finish cwd compiledDir markers d content = .ok text) :
    (∃ messages, text = errorNote messages) ∨ ∃ taken, part markers d content = .ok (.ok taken) ∧
      text.toList = (fencedOf cwd compiledDir d (withoutComments d taken)).text := by
  obtain ⟨found, hpart, h⟩ := Except.of_bind_eq_ok h
  cases found with
  | error problem =>
    cases h
    exact .inl ⟨_, rfl⟩
  | ok taken =>
    cases h
    refine .inr ⟨taken, hpart, ?_⟩
    rw [text_fencedOf, hsrc]
    rfl

theorem finish_whole {text : String} (hoptions : d.options = []) (hsrc : isMarkdown d.source = true)
    (h : finish cwd compiledDir markers d content = .ok text) : text = content := by
  obtain ⟨kind, source, options, baseDir⟩ := d
  cases hoptions
  rw [finish] at h
  rw [hsrc] at h
  cases h
  rfl

end Embed

theorem Work.lift_ok {α : Type} {x : Except Crash α} {a : α} {d d' : Desk} (h : (Work.lift x).run d = (.ok a, d')) :
    x = .ok a := by
  cases x with
  | error c => cases h
  | ok b =>
    cases h
    rfl

namespace Compile

open Plan Work

variable {s : Setting} {texts : List (Option String)}

theorem compileNode_embed {p : Plugin} {parent : List Fragment} {text : String} {d d' : Desk}
    (hp : p.behaviour = .embed) (h : (compileNode s n p parent).run d = (.ok text, d')) :
    n.document = none ∧ text = "" ∨ ∃ fragments content d₁ cwd markers, n.document = some fragments ∧
      (compileDocument s (compileAll s n.children) n.directive.source fragments).run d = (.ok content, d₁) ∧
      Embed.finish cwd s.compiledDir markers n.directive content = .ok text := by
  obtain ⟨x, place, status, document, children, data⟩ := n
  rw [compileNode] at h
  cases document with
  | none =>
    dsimp only [Option.map_none] at h
    rw [transform.eq_def, hp] at h
    cases h
    exact .inl ⟨rfl, rfl⟩
  | some fragments =>
    dsimp only [Option.map_some] at h
    rw [transform.eq_def, hp] at h
    obtain ⟨content, d₁, hcont, h⟩ := bind_ok h
    rw [run_bind_of_ok (run_get d₁)] at h
    exact .inr ⟨fragments, content, d₁, d₁.disk.folder, _, rfl, hcont, lift_ok h⟩

inductive Takes (s : Setting) (children : List Node) (x : Directive) : String → Prop where
  | part {n : Node} {fragments : List Fragment} {whole taken : String} {markers : Embed.Markers} {d d' : Desk} :
      n ∈ children → n.directive = x → n.document = some fragments →
      (compileDocument s (compileAll s n.children) n.directive.source fragments).run d = (.ok whole, d') →
      Embed.part markers x whole = .ok (.ok taken) → Takes s children x (Embed.withoutComments x taken)

/-- What stands for a directive that embeds a file that is not Markdown: nothing, a note or what it takes from the
file in a fence. -/
theorem Made.embedded {children : List Node} {c : Call} {d d' : Desk} (h : Made s children c d d')
    (hkind : Session.Embedding s.registry c.directive.kind)
    (hsrc : Embed.isMarkdown c.directive.source = false) :
    c.text = "" ∨ (∃ messages, c.text = Embed.errorNote messages) ∨
      ∃ cwd content, Takes s children c.directive content ∧
        c.text.toList = (Embed.fencedOf cwd s.compiledDir c.directive content).text := by
  cases h with
  | failed _ _ _ _ _ htext => exact .inr (.inl ⟨_, htext⟩)
  | unknown _ htext => exact .inr (.inl ⟨_, htext⟩)
  | @output p n text d₁ _ hp hn hlabel _ hrun _ htext =>
    have hdir : n.directive = c.directive := congrArg Prod.snd hlabel
    rw [cut] at htext
    split at htext
    · exact .inr (.inl ⟨_, htext⟩)
    · subst htext
      obtain ⟨-, htext⟩ | ⟨_, _, _, cwd, markers, hdoc, hwhole, hfinish⟩ := compileNode_embed (hkind p hp) hrun
      · exact .inl htext
      · rw [hdir] at hfinish
        obtain hnote | ⟨taken, hpart, htext⟩ := Embed.finish_ok hsrc hfinish
        · exact .inr (.inl hnote)
        · exact .inr (.inr ⟨cwd, _, .part hn hdir hdoc hwhole hpart, htext⟩)

/-! ## Laying out a compiled document -/

def pieceFor : Fragment → Option String → Outline.Piece
  | .span _, t => .own (t.getD "").toList
  | _, t => .made (t.getD "").toList

def layout (fragments : List Fragment) (texts : List (Option String)) : List Outline.Piece :=
  List.zipWith pieceFor fragments texts

theorem text_pieceFor (f : Fragment) (t : Option String) : (pieceFor f t).text = (t.getD "").toList := by
  cases f <;> rfl

theorem textOf_layout {fragments : List Fragment} (h : fragments.length = texts.length) :
    Outline.textOf (layout fragments texts) = (String.join (texts.filterMap id)).toList := by
  induction fragments generalizing texts with
  | nil =>
    cases texts with
    | nil => rfl
    | cons t texts => cases h
  | cons f fragments ih =>
    cases texts with
    | nil => cases h
    | cons t texts =>
      rw [layout, zipWith_cons_cons, Outline.textOf, flatMap_cons, text_pieceFor]
      have hrest := ih (Nat.succ.inj h)
      rw [layout, Outline.textOf] at hrest
      rw [hrest]
      cases t with
      | none => rfl
      | some t => simp [String.join_cons]

theorem contributes_of_getElem? {fragments : List Fragment}
    (h : List.Forall₂ (Contributes s n content) fragments.zipIdx texts) {j : Nat} {f : Fragment} {t : Option String}
    (hf : fragments[j]? = some f) (ht : texts[j]? = some t) : Contributes s n content (f, j) t := by
  obtain ⟨hlt, rfl⟩ := List.getElem?_eq_some_iff.1 hf
  obtain ⟨hlt', rfl⟩ := List.getElem?_eq_some_iff.1 ht
  simpa using h.get (by simpa using hlt) hlt'

theorem wholeLines_of_contributes {fragments : List Fragment}
    (hapart : fragments.Pairwise (Fragment.Apart content.toList))
    (h : List.Forall₂ (Contributes s n content) fragments.zipIdx texts) (hk : fragments[k]? = some (.directive x))
    {t : List Char} (ht : .own t ∈ (layout fragments texts).take k) : Text.WholeLines t := by
  obtain ⟨j, hj⟩ := mem_iff_getElem?.1 ht
  rw [List.getElem?_take] at hj
  split at hj
  · rename_i hlt
    obtain ⟨f, u, hf, hu, hpiece⟩ := List.getElem?_zipWith_eq_some.1 hj
    have hcontributes := contributes_of_getElem? h hf hu
    cases f with
    | span y =>
      cases hcontributes
      obtain rfl : y.of content.toList = t := by simpa [pieceFor] using hpiece
      obtain ⟨hj, hf⟩ := List.getElem?_eq_some_iff.1 hf
      obtain ⟨hk, hx⟩ := List.getElem?_eq_some_iff.1 hk
      exact pairwise_iff_getElem.1 hapart j k hj hk hlt y x hf hx
    | directive y => cases hpiece
    | text y => cases hpiece
  · cases hj

/-- A plan that is compiled to a text is compiled by the plugin of its root. What was shown and asked before has
not touched the files. -/
theorem exists_compileNode {base d d' : Desk} {text : String} (hserves : Desk.Serves base (fun _ => True) d)
    (h : (compilePlan config r compiledDir root).run d = (.ok text, d')) (hne : text ≠ "") :
    ∃ p e, r.find? root.directive.kind = some p ∧ Desk.Serves base (fun _ => True) e ∧
      (compileNode (settingOf config r compiledDir root) root p []).run e = (.ok text, d') := by
  obtain ⟨d₀, hserves₀, h⟩ : ∃ d₀, Desk.Serves base (fun _ => True) d₀ ∧
      (compileRoot config r compiledDir root).run d₀ = (.ok text, d') := by
    rw [compilePlan] at h
    split at h
    · obtain ⟨_, _, -, h⟩ := bind_ok h
      exact absurd (pure_ok h).1 hne
    · dsimp only at h
      split at h
      · obtain ⟨_, d₁, hshow, h⟩ := bind_ok h
        obtain ⟨goes, d₂, hgoes, h⟩ := bind_ok h
        have hserves₁ := Even.serves hserves
          (even_showErrors (advances_matched (E := fun _ => True) fun _ _ => trivial).toAttends _) hshow
        have hserves₂ := Even.serves hserves₁
          (even_goesOn (advances_matched (E := fun _ => True) fun _ _ => trivial).toAttends _) hgoes
        split at h
        · exact absurd (pure_ok h).1 hne
        · exact ⟨d₂, hserves₂, h⟩
      · exact ⟨d, hserves, h⟩
  rw [compileRoot] at h
  split at h
  · exact absurd (pure_ok h).1 hne
  · rename_i p hp
    exact ⟨p, { d₀ with compiled := 0 }, hp, hserves₀.congr rfl ⟨rfl, rfl⟩ hserves₀.faithful, h⟩

/-- How the text of a Markdown file comes about from its plan: the file is read as it was when it was planned,
and each fragment of it contributes its piece. -/
theorem exists_texts {path text : String} {d d₁ d₂ : Desk} (hdesk : d.cache.Faithful d.disk)
    (hplan : (planFile config r path).run d = (.ok root, d₁))
    (hcompile : (compilePlan config r compiledDir root).run d₁ = (.ok text, d₂)) (hne : text ≠ "")
    (hkind : Session.Embedding r root.directive.kind) (hmd : Embed.isMarkdown root.directive.source = true) :
    ∃ fragments content texts, root.document = some fragments ∧ d.reads root.directive.source = .ok (some content, []) ∧
      List.Forall₂ (Contributes (settingOf config r compiledDir root) root content) fragments.zipIdx texts ∧
      text = String.join (texts.filterMap id) ∧ fragments.Pairwise (Fragment.Apart content.toList) := by
  have hplanned := (steady_planFile config r path).outcome (Desk.twin_refl hdesk)
  have htwin := (steady_planFile config r path).twin hdesk
  rw [hplan] at hplanned htwin
  obtain ⟨p, -, hroot, hgrown⟩ := hplanned
  obtain ⟨plugin, e, hplugin, hserves, hnode⟩ := exists_compileNode htwin.serves hcompile hne
  obtain ⟨-, htext⟩ | ⟨fragments, made, _, cwd, markers, hdoc, hmade, hfinish⟩ :=
    compileNode_embed (hkind plugin hplugin) hnode
  · exact absurd htext hne
  have htext := Embed.finish_whole (by rw [hroot]) hmd hfinish
  subst htext
  have hplanned : Planned (settingOf config r compiledDir root).registry _ root := planFile_ok hplan
  obtain ⟨content, start, texts, hread, hpieces, htext⟩ := accounted_of_compileDocument hplanned hdoc hmade
  have hsrc : (fun _ : String => True) root.directive.source := trivial
  obtain ⟨_, _, hrun, -⟩ := run_readFile_of_serves hserves hsrc
  have hreads : d.reads root.directive.source = .ok (some content, []) := by
    rw [hrun] at hread
    exact congrArg Prod.fst hread
  exact ⟨fragments, content, texts, hdoc, hreads, hpieces, htext, hgrown.apart hdoc hreads⟩

theorem exists_made {fragments : List Fragment} (h : List.Forall₂ (Contributes s n content) fragments.zipIdx texts)
    (hk : fragments[k]? = some (.directive x)) (hkind : Session.Embedding s.registry x.kind)
    (hsrc : Embed.isMarkdown x.source = false) :
    ∃ made, (layout fragments texts)[k]? = some (.made made) ∧
      (made = [] ∨ (∃ messages, made = (Embed.errorNote messages).toList) ∨
        ∃ cwd content, Takes s n.children x content ∧ made = (Embed.fencedOf cwd s.compiledDir x content).text) := by
  have hlen : k < texts.length := by
    rw [← h.length_eq, length_zipIdx]
    exact (List.getElem?_eq_some_iff.1 hk).1
  obtain ⟨t, ht⟩ : ∃ t, texts[k]? = some t := ⟨_, List.getElem?_eq_getElem hlen⟩
  refine ⟨(t.getD "").toList, List.getElem?_zipWith_eq_some.2 ⟨_, _, hk, ht, rfl⟩, ?_⟩
  cases contributes_of_getElem? h hk ht with
  | nothing _ => exact .inl rfl
  | directive _ hmade =>
    obtain htext | ⟨messages, htext⟩ | htext := hmade.embedded hkind hsrc
    · exact .inl (congrArg String.toList htext)
    · exact .inr (.inl ⟨messages, congrArg String.toList htext⟩)
    · exact .inr (.inr htext)

open Outline in
/-- In a Markdown document that is planned and compiled, a directive that embeds a file of another kind leaves
nothing, a note or what it takes from the file in a fence. If the document itself is outside any fence at its
directives, and those before this one left whole lines and no open fence, then a scan finds the file sealed in its
fence if and only if no line of it closes the fence and the closing marks do, with what follows them in their line. -/
theorem compilePlan_sealed_iff {config : Config} {r : Registry} {path compiledDir text : String} {root : Node}
    {d d₁ d₂ : Desk} (hdesk : d.cache.Faithful d.disk)
    (hplan : (planFile config r path).run d = (.ok root, d₁))
    (hcompile : (compilePlan config r compiledDir root).run d₁ = (.ok text, d₂)) (hne : text ≠ "")
    (hkind : Session.Embedding r root.directive.kind) (hmd : Embed.isMarkdown root.directive.source = true) :
    ∃ fragments content texts, root.document = some fragments ∧ d.reads root.directive.source = .ok (some content, []) ∧
      List.Forall₂ (Contributes (settingOf config r compiledDir root) root content) fragments.zipIdx texts ∧
      text.toList = textOf (layout fragments texts) ∧
      ∀ k x, fragments[k]? = some (.directive x) → Session.Embedding r x.kind → Embed.isMarkdown x.source = false →
        let before := (layout fragments texts).take k
        let after := textOf ((layout fragments texts).drop (k + 1))
        ∃ made, (layout fragments texts)[k]? = some (.made made) ∧
          (made = [] ∨ (∃ messages, made = (Embed.errorNote messages).toList) ∨
            ∃ cwd taken, Takes (settingOf config r compiledDir root) root.children x taken ∧
              let file := Embed.fencedOf cwd compiledDir x taken
              made = file.text ∧ (file.Plain → OwnOutside (before ++ [.made made]) → Tame before →
                (file.Sealed (textOf before) after ↔ file.Closed ∧ closes (Block.fence ++ firstLine after) = true) ∧
                (∀ c ∈ firstLine after, Text.isBlank c = false → c ≠ grave → ¬ file.Sealed (textOf before) after) ∧
                ∀ blanks rest, Text.Unbroken blanks → Text.allBlank blanks = true → file.Closed →
                  Tame (before ++ [.made made, .own (blanks ++ '\n' :: rest)]))) := by
  obtain ⟨fragments, content, texts, hdoc, hreads, hpieces, htext, hapart⟩ :=
    exists_texts hdesk hplan hcompile hne hkind hmd
  have hlen : fragments.length = texts.length := by rw [← hpieces.length_eq, length_zipIdx]
  refine ⟨fragments, content, texts, hdoc, hreads, hpieces, ?_, fun k x hk hx hsrc => ?_⟩
  · rw [textOf_layout hlen, htext]
  intro before after
  obtain ⟨made, hmade, hcases⟩ := exists_made hpieces hk hx hsrc
  refine ⟨made, hmade, hcases.imp id (Or.imp id ?_)⟩
  rintro ⟨cwd, taken, htakes, rfl⟩
  refine ⟨cwd, taken, htakes, rfl, fun hplain hout htame => ?_⟩
  obtain ⟨hwhole, -, hsame⟩ := htame.same (fun t ht => wholeLines_of_contributes hapart hpieces hk ht) hout.left
  have houtside : (Fence.atEnd (textOf before)).inside = false := by
    rw [hsame.1]
    exact hout before _ [] rfl
  have hiff := hplain.sealed_iff hwhole houtside after
  refine ⟨hiff, fun c hc hblank hgrave hsealed => ?_, fun blanks rest hline hblanks hclosed =>
    htame.fenced hplain hclosed hline hblanks rest⟩
  rw [closes_eq_false hc hblank hgrave] at hiff
  cases (hiff.1 hsealed).2

/-! ### A file before an empty line and before a line of text -/

namespace Excerpt

def block : String := "before\n```yaml embedm\ntype: file\nsource: b.py\n```\n"

def text (following : String) : String := block ++ following

def desk (following : String) : Desk where
  disk :=
    { folder := { root := "/", parts := ["p"] }
      entries := [(["p"], .folder), (["p", "a.md"], .file (text following).toUTF8),
        (["p", "b.py"], .file "x = 1\n".toUTF8)] }
  cache := (Sole.desk "").cache

def directive : Directive := { kind := "file", source := "/p/b.py", options := [], baseDir := "/p" }

def fragments : List Fragment := [.span ⟨0, 7⟩, .directive directive, .span ⟨50, 7⟩]

theorem embedding : Session.Embedding Sole.registry "file" := by
  rintro p ⟨⟩
  rfl

def made : List Char := Block.fence ++ ['p', 'y'] ++ '\n' :: ("x = 1".toList ++ '\n' :: Block.fence)

theorem made_ne_note (messages : List String) : made ≠ (Embed.errorNote messages).toList := by
  have hnote : (Embed.errorNote messages).toList.head? = some '>' := by
    cases messages <;> simp [Embed.errorNote, String.toList_intercalate, List.intercalate]
  intro h
  rw [← h] at hnote
  cases hnote

theorem fencedOf_eq (cwd : Path) (content : String) :
    Embed.fencedOf cwd "" directive content = ⟨[], ['p', 'y'], content.toList⟩ := by
  have hname : (Embed.languageOf directive.source).toList = ['p', 'y'] := by decide
  rw [Embed.fencedOf, hname]
  rfl

theorem plain (content : List Char) : (⟨[], ['p', 'y'], content⟩ : Outline.Fenced).Plain := by
  refine ⟨.inl rfl, ?_, ?_, ?_⟩
  · show ∀ line ∈ Outline.linesOf [], (Outline.marks line).length < 3
    decide
  · show ['p', 'y'].head? ≠ some Outline.grave
    decide
  · show Text.Unbroken ['p', 'y']
    decide

theorem closed (h : made = (Embed.fencedOf cwd "" directive content).text) :
    (Embed.fencedOf cwd "" directive content).Closed := by
  rw [fencedOf_eq] at h
  have hbody := append_cancel_right (List.cons.inj (append_cancel_left h)).2
  rw [fencedOf_eq, Outline.Fenced.Closed, ← hbody]
  decide

theorem layout_eq (h : List.Forall₂ (Contributes s n (text "\nafter\n")) fragments.zipIdx texts) :
    ∃ t, layout fragments texts = [.own "before\n".toList, .made t, .own "\nafter\n".toList] := by
  obtain _ | ⟨hbefore, _ | ⟨-, _ | ⟨hafter, ⟨⟩⟩⟩⟩ := h
  cases hbefore
  cases hafter
  rename_i t
  have hbefore : (Span.mk 0 7).of (text "\nafter\n").toList = "before\n".toList := by decide
  have hafter : (Span.mk 50 7).of (text "\nafter\n").toList = "\nafter\n".toList := by decide
  exact ⟨(t.getD "").toList, by simp [layout, fragments, pieceFor, hbefore, hafter]⟩

theorem ownOutside (t : List Char) : Outline.OwnOutside [.own "before\n".toList, .made t] := by
  intro before u after h
  obtain _ | ⟨p, _ | ⟨q, before⟩⟩ := before
  · cases h
  · cases h
    decide
  · cases before <;> cases h

end Excerpt

open Excerpt (closed desk directive embedding ownOutside plain text)

open Outline in
/-- Before an empty line the file is sealed. -/
theorem excerpt_sealed : ∃ root d₁ d₂,
    (planFile {} Sole.registry "a.md").run (desk "\nafter\n") = (.ok root, d₁) ∧
    (compilePlan {} Sole.registry "" root).run d₁ = (.ok "before\n```py\nx = 1\n```\nafter\n", d₂) ∧
    ∃ file : Fenced, file.text = Excerpt.made ∧ file.Sealed "before\n".toList "\nafter\n".toList := by
  have hcomes : Comes (planFile {} Sole.registry "a.md") (desk "\nafter\n") fun root d =>
      root.directive = ⟨"file", "/p/a.md", [], ""⟩ ∧ root.document = some Excerpt.fragments ∧
      Comes (compilePlan {} Sole.registry "" root) d fun text _ => text = "before\n```py\nx = 1\n```\nafter\n" := by
    decide +kernel
  obtain ⟨root, d₁, hplan, hdir, hdoc, hcomp⟩ := hcomes.exists
  obtain ⟨_, d₂, hcompile, rfl⟩ := hcomp.exists
  have hreads : (desk "\nafter\n").reads "/p/a.md" = .ok (some (text "\nafter\n"), []) := by
    decide
  refine ⟨root, d₁, d₂, hplan, hcompile, ?_⟩
  obtain ⟨fragments, content, texts, hdoc', hreads', hpieces, htext, hdirs⟩ :=
    compilePlan_sealed_iff (Cache.faithful_of_entries_eq_nil rfl) hplan hcompile (by decide)
      (by rw [hdir]; exact embedding) (by rw [hdir]; decide)
  obtain rfl : content = text "\nafter\n" := by
    rw [hdir, hreads] at hreads'
    cases hreads'
    rfl
  obtain rfl : fragments = Excerpt.fragments := Option.some.inj (hdoc'.symm.trans hdoc)
  obtain ⟨t, hlayout⟩ := Excerpt.layout_eq hpieces
  rw [hlayout] at htext hdirs
  obtain ⟨_, ⟨⟩, hcases⟩ := hdirs 1 directive rfl embedding (by decide)
  -- the text determines what the file became
  have hmade : t = Excerpt.made := by
    have hwhole : "before\n```py\nx = 1\n```\nafter\n".toList =
        "before\n".toList ++ (Excerpt.made ++ "\nafter\n".toList) := by decide
    rw [hwhole] at htext
    simp only [textOf, flatMap_cons, flatMap_nil, Piece.text, append_nil] at htext
    exact (append_cancel_right (append_cancel_left htext)).symm
  subst hmade
  obtain hnil | ⟨messages, hnote⟩ | ⟨cwd, content, -, hfile, hsealed⟩ := hcases
  · cases hnil
  · exact absurd hnote (Excerpt.made_ne_note messages)
  · refine ⟨_, hfile.symm, ?_⟩
    have hplain : (Embed.fencedOf cwd "" directive content).Plain := by
      rw [Excerpt.fencedOf_eq]
      exact plain _
    have hiff := (hsealed hplain (ownOutside _) (.own _ .nil)).1
    simpa [textOf, Piece.text] using hiff.2 ⟨closed hfile, by decide⟩

/-- Before a line of text it is not: the last line of the document is taken for a part of the file. -/
theorem excerpt_not_sealed : ∃ root d₁ d₂,
    (planFile {} Sole.registry "a.md").run (desk "after\n") = (.ok root, d₁) ∧
    (compilePlan {} Sole.registry "" root).run d₁ = (.ok "before\n```py\nx = 1\n```after\n", d₂) ∧
    Outline.OwnOutside [.own "before\n".toList, .made Excerpt.made] ∧
    ∃ file : Outline.Fenced, file.text = Excerpt.made ∧ ¬ file.Sealed "before\n".toList "after\n".toList := by
  have hcomes : Comes (planFile {} Sole.registry "a.md") (desk "after\n") fun root d =>
      Comes (compilePlan {} Sole.registry "" root) d fun text _ => text = "before\n```py\nx = 1\n```after\n" := by
    decide +kernel
  obtain ⟨root, d₁, hplan, hcomp⟩ := hcomes.exists
  obtain ⟨_, d₂, hcompile, rfl⟩ := hcomp.exists
  refine ⟨root, d₁, d₂, hplan, hcompile, ownOutside _, ⟨[], ['p', 'y'], "x = 1".toList⟩, by decide, ?_⟩
  have hbefore : Text.WholeLines "before\n".toList := by decide
  rw [(plain _).sealed_iff hbefore (by decide)]
  rintro ⟨-, hcloses⟩
  exact absurd hcloses (by decide)

end Compile

end Transclude
