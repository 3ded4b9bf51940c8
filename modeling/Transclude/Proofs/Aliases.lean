import Transclude.Proofs.Planning
import Transclude.Proofs.Transparency

/-!
# Paths to one file

Two texts may name one file, as `/p/a.md` and `/p/x/../a.md` do. A text leads to the place that its path is resolved
to (`locate_eq_resolve`), and a document says the same by whichever text it is read (`ofText_detached`).
-/

namespace Transclude

open List Directive Fragment Path Text Except

variable {names above xs : List String} {d : Directive} {name s : String} {blocks : List Block} {raw cs : List Char}

/-! ## Resolving -/

namespace Path

theorem collapse_cons (above : List String) (name : String) (rest : List String) : collapse above (name :: rest) =
      if name = ".." then collapse (above.drop 1) rest else collapse (name :: above) rest := by
  split_ifs with h
  · subst h
    rfl
  · rw [collapse]
    exact h

theorem collapse_append (above xs ys : List String) :
    collapse above (xs ++ ys) = collapse (collapse above xs).reverse ys := by
  induction xs generalizing above with
  | nil => rw [nil_append, collapse, reverse_reverse]
  | cons name xs ih =>
    rw [cons_append, collapse_cons, collapse_cons]
    split_ifs
    · exact ih _
    · exact ih _

theorem collapse_of_forall_ne (above : List String) (h : ∀ x ∈ xs, x ≠ "..") :
    collapse above xs = above.reverse ++ xs := by
  induction xs generalizing above with
  | nil => rw [collapse, append_nil]
  | cons x xs ih =>
    rw [forall_mem_cons] at h
    rw [collapse_cons, if_neg h.1, ih _ h.2, reverse_cons, append_assoc, singleton_append]

theorem of_mem_collapse {x : String} (h : x ∈ collapse above xs) : x ∈ above ∨ x ∈ xs ∧ x ≠ ".." := by
  induction xs generalizing above with
  | nil => exact .inl (mem_reverse.1 h)
  | cons name xs ih =>
    rw [collapse_cons] at h
    split_ifs at h with hname
    · rcases ih h with h | h
      · exact .inl (mem_of_mem_drop h)
      · exact .inr ⟨mem_cons_of_mem _ h.1, h.2⟩
    · rcases ih h with h | h
      · rcases mem_cons.1 h with rfl | h
        · exact .inr ⟨mem_cons_self, hname⟩
        · exact .inl h
      · exact .inr ⟨mem_cons_of_mem _ h.1, h.2⟩

structure Canonical (p : Path) : Prop where
  root : p.root = "/"
  names : ∀ name ∈ p.parts, IsName name
  down : ∀ name ∈ p.parts, name ≠ ".."

variable {p q folder : Path}

theorem Canonical.clean (h : p.Canonical) : p.Clean := ⟨.inr (.inl h.root), h.names⟩

theorem Clean.parent (h : p.Clean) : p.parent.Clean :=
  ⟨h.root, fun name hname => h.names name (dropLast_subset _ hname)⟩

theorem resolve_of_isAbsolute (folder : Path) (habs : p.isAbsolute = true) :
    resolve folder p = ⟨"/", collapse [] p.parts⟩ := by
  rw [resolve, join, if_pos habs]

theorem canonical_resolve (folder : Path) (hp : p.Clean) (habs : p.isAbsolute = true) :
    (resolve folder p).Canonical := by
  have hmem : ∀ name ∈ (resolve folder p).parts, name ∈ p.parts ∧ name ≠ ".." := by
    rw [resolve_of_isAbsolute folder habs]
    exact fun name hname => (of_mem_collapse hname).resolve_left not_mem_nil
  exact ⟨rfl, fun name hname => hp.names name (hmem name hname).1, fun name hname => (hmem name hname).2⟩

theorem Canonical.resolve_eq (folder : Path) (h : p.Canonical) : resolve folder p = p := by
  obtain ⟨root, parts⟩ := p
  obtain rfl : root = "/" := h.root
  rw [resolve_of_isAbsolute folder rfl, collapse_of_forall_ne [] h.down]
  rfl

theorem Canonical.parent (h : p.Canonical) : p.parent.Canonical :=
  ⟨h.root, fun name hname => h.names name (dropLast_subset _ hname),
    fun name hname => h.down name (dropLast_subset _ hname)⟩

theorem Canonical.join (h : p.Canonical) (hq : q.isAbsolute = false) (hnames : ∀ name ∈ q.parts, IsName name)
    (hdown : ∀ name ∈ q.parts, name ≠ "..") : (p.join q).Canonical := by
  rw [Path.join, if_neg (by simp [hq])]
  exact ⟨h.root, forall_mem_append.2 ⟨h.names, hnames⟩, forall_mem_append.2 ⟨h.down, hdown⟩⟩

theorem resolve_down (folder p : Path) : ∀ name ∈ (resolve folder p).parts, name ≠ ".." :=
  fun _ hname => ((of_mem_collapse hname).resolve_left not_mem_nil).2

theorem resolve_join (folder p : Path) (hq : q.isAbsolute = false) :
    resolve folder (p.join q) = resolve (resolve folder p) q := by
  have hleft : (folder.join (p.join q)).parts = (folder.join p).parts ++ q.parts := by
    simp only [join, hq, Bool.false_eq_true, if_false]
    have habs : isAbsolute { p with parts := p.parts ++ q.parts } = p.isAbsolute := rfl
    rw [habs]
    split_ifs <;> simp
  have hright : ((resolve folder p).join q).parts = (resolve folder p).parts ++ q.parts := by
    rw [join, if_neg (by simp [hq])]
  refine congrArg (mk "/") ?_
  calc collapse [] (folder.join (p.join q)).parts
      = collapse (resolve folder p).parts.reverse q.parts := by rw [hleft, collapse_append]; rfl
    _ = collapse (collapse [] (resolve folder p).parts).reverse q.parts := by
      rw [collapse_of_forall_ne [] (resolve_down folder p)]
      rfl
    _ = collapse [] ((resolve folder p).join q).parts := by rw [hright, collapse_append]

theorem join_parts_concat (folder : Path) (hp : p.parts = above ++ [name]) :
    (folder.join p).parts = (folder.join p.parent).parts ++ [name] := by
  have habs : p.parent.isAbsolute = p.isAbsolute := rfl
  rw [join, join, habs]
  split_ifs
  · rw [parent, hp, dropLast_concat]
  · simp only [hp, parent, dropLast_concat, append_assoc]

theorem resolve_parent (folder : Path) (hp : p.parts = above ++ [name]) (hname : name ≠ "..") :
    resolve folder p.parent = (resolve folder p).parent := by
  have hparts := join_parts_concat folder hp
  have hlast : (resolve folder p).parts = (resolve folder p.parent).parts ++ [name] := by
    have hsingle : ∀ x ∈ [name], x ≠ ".." := by simpa using hname
    rw [resolve, hparts, collapse_append, collapse_of_forall_ne _ hsingle, reverse_reverse]
    rfl
  refine congrArg (mk "/") ?_
  rw [hlast, dropLast_concat]
  rfl

theorem isAbsolute_ofText_text (h : p.root = "/") : (ofText p.text).isAbsolute = true := by
  have htext : p.text.toList = '/' :: ("/".intercalate p.parts).toList := by
    have hne : ¬ ("/" ++ "/".intercalate p.parts == "") := by simp
    rw [text, h, if_neg hne, String.toList_append]
    rfl
  rcases ofText_root p.text with ⟨hhead, -⟩ | ⟨_, -, hroot | ⟨_, -, hroot⟩⟩
  · exact absurd (by rw [htext, List.head?_cons]) hhead
  · rw [isAbsolute, hroot]
    rfl
  · rw [isAbsolute, hroot]
    rfl

theorem ofText_text_resolve (folder : Path) (hs : (ofText s).isAbsolute = true) :
    ofText (resolve folder (ofText s)).text = resolve folder (ofText s) ∧
      resolve folder (ofText (resolve folder (ofText s)).text) = resolve folder (ofText s) := by
  have hcanon := canonical_resolve folder (clean_ofText s) hs
  have htext := ofText_text hcanon.clean
  rw [htext]
  exact ⟨rfl, hcanon.resolve_eq folder⟩

theorem resolve_eq_of_text_eq {t : String} (hs : (ofText s).isAbsolute = true) (ht : (ofText t).isAbsolute = true)
    (h : (resolve folder (ofText s)).text = (resolve folder (ofText t)).text) :
    resolve folder (ofText s) = resolve folder (ofText t) := by
  rw [← (ofText_text_resolve folder hs).1, ← (ofText_text_resolve folder ht).1, h]

end Path

/-! ## Where texts lead -/

namespace Disk

variable {d : Disk} {s t name : String} {place next : List String}

def Reached (d : Disk) (place : List String) : Prop := ∀ n < place.length, d.isFolderAt (place.take n) = true

theorem reached_nil : d.Reached [] := fun _ hn => absurd hn (Nat.not_lt_zero _)

theorem Reached.dropLast (h : d.Reached place) : d.Reached place.dropLast := by
  intro n hn
  rw [length_dropLast] at hn
  rw [dropLast_eq_take, take_take, Nat.min_eq_left (by omega)]
  exact h n (by omega)

theorem Reached.isFolderAt_dropLast (h : d.Reached place) : d.isFolderAt place.dropLast = true := by
  by_cases hnil : place = []
  · subst hnil
    rfl
  · rw [dropLast_eq_take]
    exact h _ (Nat.sub_lt (length_pos_iff.2 hnil) Nat.one_pos)

theorem step_cases (hname : moves name = true) (h : d.step s place name = .ok next) : d.isFolderAt place = true ∧
      (name = ".." ∧ next = place.dropLast ∨ name ≠ ".." ∧ next = place ++ [name]) := by
  rw [step] at h
  split at h
  · cases h
  · cases h
  · rename_i he
    refine ⟨by rw [isFolderAt, he], ?_⟩
    have hstill : ¬ (name == "" || name == ".") = true := by simpa [moves] using hname
    split_ifs at h with hup hlong
    · cases h
      exact .inl ⟨beq_iff_eq.1 hup, rfl⟩
    · cases h
      exact .inr ⟨fun e => hup (beq_iff_eq.2 e), rfl⟩

theorem Reached.step (h : d.Reached place) (hname : moves name = true)
    (hstep : d.step s place name = .ok next) : d.Reached next := by
  obtain ⟨hdir, ⟨-, rfl⟩ | ⟨-, rfl⟩⟩ := step_cases hname hstep
  · exact h.dropLast
  · intro n hn
    rw [length_append, length_singleton] at hn
    rw [take_append_of_le_length (by omega)]
    rcases Nat.lt_or_ge n place.length with hlt | hge
    · exact h n hlt
    · rwa [take_of_length_le hge]

theorem foldlM_step_of_moves (hnames : ∀ name ∈ names, moves name = true) (h : d.Reached place)
    (hfold : names.foldlM (d.step s) place = .ok next) :
    d.Reached next ∧ next = collapse place.reverse names := by
  induction names generalizing place with
  | nil =>
    cases hfold
    exact ⟨h, (reverse_reverse _).symm⟩
  | cons name names ih =>
    rw [forall_mem_cons] at hnames
    obtain ⟨middle, hstep, hfold⟩ := of_bind_eq_ok hfold
    obtain ⟨hreach, hnext⟩ := ih hnames.2 (h.step hnames.1 hstep) hfold
    refine ⟨hreach, hnext.trans ?_⟩
    rw [collapse_cons]
    obtain ⟨-, ⟨hup, rfl⟩ | ⟨hdown, rfl⟩⟩ := step_cases hnames.1 hstep
    · rw [if_pos hup, drop_one, tail_reverse]
    · rw [if_neg hdown, reverse_append]
      rfl

theorem foldlM_parts (habs : (ofText s).isAbsolute = true) (h : d.locate s = .ok place) :
    (ofText s).parts.foldlM (d.step s) [] = .ok place := by
  rw [locate_eq_ite, origin, if_pos habs] at h
  split_ifs at h
  exact foldlM_step_filter h

theorem locate_eq_resolve (folder : Path) (habs : (ofText s).isAbsolute = true)
    (h : d.locate s = .ok place) : place = (resolve folder (.ofText s)).parts := by
  have hmoves : ∀ name ∈ (ofText s).parts, moves name = true :=
    fun name hname => ((clean_ofText s).names name hname).1
  rw [(foldlM_step_of_moves hmoves reached_nil (foldlM_parts habs h)).2, resolve, join, if_pos habs]
  rfl

theorem isFile_iff : d.isFile s = true ↔
    ∃ place bytes, d.locate s = .ok place ∧ d.entry? place = some (.file bytes) := by
  rw [isFile, stat?]
  cases d.locate s with
  | error fault => simp
  | ok place =>
    split
    · rename_i bytes he
      simp [he]
    · rename_i he
      simpa using he

theorem exists_name_of_isFile (habs : (ofText s).isAbsolute = true) (h : d.isFile s = true) :
    ∃ above name, (ofText s).parts = above ++ [name] ∧ name ≠ ".." := by
  obtain ⟨place, bytes, hplace, hentry⟩ := isFile_iff.1 h
  have hmoves : ∀ name ∈ (ofText s).parts, moves name = true :=
    fun name hname => ((clean_ofText s).names name hname).1
  have hfold := foldlM_parts habs hplace
  rcases eq_nil_or_concat' (ofText s).parts with hparts | ⟨above, name, hparts⟩
  · rw [hparts] at hfold
    cases hfold
    cases hentry
  · refine ⟨above, name, hparts, ?_⟩
    rintro rfl
    rw [hparts, forall_mem_append] at hmoves
    rw [hparts, foldlM_append] at hfold
    obtain ⟨middle, habove, hfold⟩ := of_bind_eq_ok hfold
    rw [foldlM_cons] at hfold
    have hstep : d.step s middle ".." = .ok place := by simpa only [foldlM_nil, bind_pure] using hfold
    have hreach := (foldlM_step_of_moves hmoves.1 reached_nil habove).1
    obtain ⟨-, ⟨-, rfl⟩ | ⟨hne, -⟩⟩ := step_cases (by decide) hstep
    · have hplace := hreach.isFolderAt_dropLast
      rw [isFolderAt, hentry] at hplace
      cases hplace
    · exact hne rfl

theorem bytes_of_isFile_absolute (folder : Path) (habs : (ofText s).isAbsolute = true) (h : d.isFile s = true) :
    ∃ bytes, d.entry? (resolve folder (.ofText s)).parts = some (.file bytes) ∧
      d.bytes s = .ok bytes ∧ d.bytes (ofText s).text = .ok bytes := by
  obtain ⟨place, bytes, hplace, hentry⟩ := isFile_iff.1 h
  refine ⟨bytes, ?_, ?_, ?_⟩
  · rwa [← locate_eq_resolve folder habs hplace]
  · rw [Disk.bytes, hplace, ok_bind, hentry]
    rfl
  · rw [Disk.bytes, locate_text_ofText hplace, ok_bind, hentry]
    rfl

structure Aliases (d : Disk) (s t : String) : Prop where
  left_absolute : (ofText s).isAbsolute = true
  right_absolute : (ofText t).isAbsolute = true
  left_file : d.isFile s = true
  right_file : d.isFile t = true
  resolve_eq : resolve d.folder (.ofText s) = resolve d.folder (.ofText t)

theorem Aliases.bytes_eq (h : d.Aliases s t) :
    d.bytes s = d.bytes t ∧ d.bytes (ofText s).text = d.bytes (ofText t).text := by
  obtain ⟨bytes, hentry, hbytes, htext⟩ := bytes_of_isFile_absolute d.folder h.left_absolute h.left_file
  obtain ⟨bytes', hentry', hbytes', htext'⟩ := bytes_of_isFile_absolute d.folder h.right_absolute h.right_file
  rw [h.resolve_eq, hentry'] at hentry
  cases hentry
  exact ⟨hbytes.trans hbytes'.symm, htext.trans htext'.symm⟩

end Disk

namespace Cache

variable {c : Cache} {d : Disk} {s t text : String}

theorem refusal?_eq_none_iff : c.refusal? d s = none ↔
      isAllowed d.folder c.allowed s = true ∧ d.isFile s = true ∧ (d.size s : Int) ≤ c.maxFile.value := by
  rw [refusal?]
  split_ifs with hallow hfile hsize
  · simpa using fun h => absurd h (by simpa using hallow)
  · simpa using fun _ h => absurd h (by simpa using hfile)
  · simpa using fun _ _ => hsize
  · simpa using ⟨by simpa using hallow, by simpa using hfile, by simpa using hsize⟩

theorem objections_eq_nil_iff : c.objections d s = .ok [] ↔ hasNull s = false ∧ c.refusal? d s = none := by
  rw [objections]
  cases hasNull s <;> cases c.refusal? d s <;> simp

theorem isFile_of_direct (h : c.direct d s = .ok (some text, [])) : hasNull s = false ∧ d.isFile s = true := by
  rw [direct_eq_text_iff, objections_eq_nil_iff, refusal?_eq_none_iff] at h
  exact ⟨h.1.1, h.1.2.2.1⟩

theorem direct_of_aliases (h : d.Aliases s t) (hnull : hasNull t = false)
    (hread : c.direct d s = .ok (some text, [])) : c.direct d t = .ok (some text, []) := by
  rw [direct_eq_text_iff, objections_eq_nil_iff, refusal?_eq_none_iff] at hread ⊢
  obtain ⟨⟨-, hallow, hfiles, hsize⟩, htext⟩ := hread
  obtain ⟨hbytes, hbytes'⟩ := h.bytes_eq
  have hallowed_eq : isAllowed d.folder c.allowed t = isAllowed d.folder c.allowed s := by
    rw [isAllowed, ← h.resolve_eq, isAllowed]
  have hsize_eq : d.size t = d.size s := by rw [Disk.size, ← hbytes, Disk.size]
  have htext_eq : d.text (ofText t).text = d.text (ofText s).text := by rw [Disk.text, ← hbytes', Disk.text]
  rw [hallowed_eq, hsize_eq, htext_eq]
  exact ⟨⟨hnull, hallow, h.right_file, hsize⟩, htext⟩

end Cache

/-! ## Documents under two names -/

namespace Plan

variable {cwd : Path} {d : Disk} {s t : String}

theorem ofText_folderOf (hs : (ofText s).isAbsolute = true) :
    ofText (folderOf s) = (ofText s).parent ∧ folderOf s ≠ "" := by
  have hne : ¬ s.isEmpty = true := by
    intro h
    obtain rfl : s = "" := by simpa using h
    cases hs
  have hdir : folderOf s = (ofText s).parent.text := by rw [folderOf, if_neg hne]
  have htext := ofText_text (clean_ofText s).parent
  rw [hdir]
  refine ⟨htext, fun h => ?_⟩
  rw [h] at htext
  have habs : (ofText s).parent.isAbsolute = true := hs
  rw [← htext] at habs
  cases habs

theorem resolve_folderOf (folder : Path) (hs : (ofText s).isAbsolute = true) (hfile : d.isFile s = true) :
    resolve folder (.ofText (folderOf s)) = (resolve folder (.ofText s)).parent := by
  obtain ⟨above, name, hparts, hname⟩ := Disk.exists_name_of_isFile hs hfile
  rw [(ofText_folderOf hs).1, resolve_parent folder hparts hname]

theorem resolveSource_of_aliases {source u v : String} (h : d.Aliases s t)
    (hu : resolveSource d.folder (folderOf s) source = .ok u)
    (hv : resolveSource d.folder (folderOf t) source = .ok v) : u = v := by
  have hs := (ofText_folderOf h.left_absolute).2
  have ht := (ofText_folderOf h.right_absolute).2
  simp only [resolveSource, bne_iff_ne.2 hs, bne_iff_ne.2 ht, Bool.and_true] at hu hv
  split_ifs at hu hv with hrel
  · have hrel : (ofText source).isAbsolute = false := by simp_all
    cases hu
    cases hv
    rw [resolve_join _ _ hrel, resolve_join _ _ hrel,
      resolve_folderOf _ h.left_absolute h.left_file, resolve_folderOf _ h.right_absolute h.right_file,
      h.resolve_eq]
  · cases hu
    cases hv
    rfl

theorem absolute_of_resolveSource {source u : String} (hs : (ofText s).isAbsolute = true)
    (hu : resolveSource cwd (folderOf s) source = .ok u) :
    u = "" ∨ (ofText u).isAbsolute = true := by
  simp only [resolveSource] at hu
  split_ifs at hu with hrel
  · cases hu
    exact .inr (isAbsolute_ofText_text rfl)
  · cases hu
    have hdir := (ofText_folderOf hs).2
    by_cases hempty : source = ""
    · exact .inl hempty
    · simpa [hempty, hdir] using hrel

end Plan

def Directive.detached (d : Directive) : Directive := { d with baseDir := "" }

theorem Directive.of_detached_eq {d' : Directive} (h : d.detached = d'.detached) :
    d.kind = d'.kind ∧ d.source = d'.source ∧ d.options = d'.options := by
  simpa [detached] using h

def Fragment.detached : Fragment → Fragment
  | .directive d => .directive d.detached
  | f => f

def SameSources (cwd : Path) (b b' : String) : Prop :=
  ∀ source u v, resolveSource cwd b source = .ok u → resolveSource cwd b' source = .ok v → u = v

section

variable {cwd : Path} {b b' : String} {x y : List Fragment × List Refusal}

theorem Directive.read_cases (cwd : Path) (raw : List Char) :
    (∃ found : Except Crash Refusal, ∀ b, read cwd b raw = found.map .error) ∨
    ∃ kind source options, ∀ b, read cwd b raw = (do
      let u ← resolveSource cwd b source
      let o ← options
      return .ok ⟨kind, u, o, b⟩) := by
  by_cases hblank : allBlank raw
  · exact .inl ⟨.ok .empty, fun b => by rw [read, if_pos hblank]; rfl⟩
  · simp only [read, if_neg hblank]
    cases Yaml.read (String.ofList raw) with
    | error fault =>
      left
      cases fault with
      | malformed => exact ⟨.ok (.malformed syntaxDetail), fun _ => rfl⟩
      | _ => exact ⟨.error (.yaml _), fun _ => rfl⟩
    | ok v =>
      dsimp only
      split
      · rename_i entries _
        cases Value.get? entries "type" with
        | none => exact .inl ⟨.ok .untyped, fun _ => rfl⟩
        | some kind => exact .inr ⟨kind.asText, _, readOptions [] entries, fun _ => rfl⟩
      · exact .inl ⟨.ok .notMapping, fun _ => rfl⟩

/-- How a fragment of a text that is read nowhere is read at a folder. -/
inductive Fragment.Moved (cwd : Path) (b : String) : Fragment → Fragment → Prop where
  | directive {kind source u : String} {options : Options} : resolveSource cwd b source = .ok u →
      Moved cwd b (.directive ⟨kind, source, options, ""⟩) (.directive ⟨kind, u, options, b⟩)
  | span (s : Span) : Moved cwd b (.span s) (.span s)

theorem Directive.read_moved {found : Except Refusal Directive} (h : read cwd b raw = .ok found) :
    (∃ refusal, found = .error refusal ∧ read cwd "" raw = .ok (.error refusal)) ∨
      ∃ e d, found = .ok d ∧ read cwd "" raw = .ok (.ok e) ∧ Fragment.Moved cwd b (.directive e) (.directive d) := by
  rcases read_cases cwd raw with ⟨refused, hread⟩ | ⟨kind, source, options, hread⟩
  · rw [hread] at h ⊢
    cases refused with
    | error c => cases h
    | ok refusal => exact .inl ⟨refusal, (Except.ok.inj h).symm, rfl⟩
  · rw [hread] at h ⊢
    obtain ⟨u, hu, h⟩ := of_bind_eq_ok h
    obtain ⟨o, rfl, h⟩ := of_bind_eq_ok h
    exact .inr ⟨_, _, (Except.ok.inj h).symm, by simp [resolveSource, ok_bind], .directive hu⟩

namespace Fragment

theorem ofBlocks_moved {position stop : Nat} (hx : ofBlocks cwd b position stop blocks = .ok x) :
    ∃ y, ofBlocks cwd "" position stop blocks = .ok y ∧ Forall₂ (Moved cwd b) y.1 x.1 := by
  have hspan (start stop : Nat) : Forall₂ (Moved cwd b) (ofBlocks.spanTo start stop) (ofBlocks.spanTo start stop) := by
    rw [ofBlocks.spanTo]
    split
    · exact .cons (.span _) .nil
    · exact .nil
  induction blocks generalizing position x with
  | nil =>
    cases hx
    exact ⟨_, rfl, hspan ..⟩
  | cons block blocks ih =>
    obtain ⟨made, hmade, hx⟩ := of_bind_eq_ok hx
    obtain ⟨rest, hrest, hx⟩ := of_bind_eq_ok hx
    obtain ⟨rest', hrest', ih⟩ := ih hrest
    rcases read_moved hmade with ⟨refusal, rfl, hread⟩ | ⟨e, d, rfl, hread, hmoved⟩ <;> cases hx <;>
      rw [ofBlocks, hread, hrest']
    · exact ⟨_, rfl, rel_append (hspan ..) ih⟩
    · exact ⟨_, rfl, rel_append (hspan ..) (.cons hmoved ih)⟩

theorem ofText_moved (hx : ofText cwd b cs = .ok x) :
    ∃ y, ofText cwd "" cs = .ok y ∧ Forall₂ (Moved cwd b) y.1 x.1 := by
  obtain ⟨found, hfound, hx⟩ := of_bind_eq_ok hx
  obtain ⟨found', hfound', hmoved⟩ := ofBlocks_moved hfound
  cases hx
  rw [ofText, hfound']
  exact ⟨_, rfl, hmoved⟩

theorem ofText_detached (h : SameSources cwd b b') (hx : ofText cwd b cs = .ok x)
    (hy : ofText cwd b' cs = .ok y) : x.1.map detached = y.1.map detached := by
  obtain ⟨found, hfound, hmoved⟩ := ofText_moved hx
  obtain ⟨found', hfound', hmoved'⟩ := ofText_moved hy
  cases hfound.symm.trans hfound'
  generalize found.1 = given, x.1 = fs, y.1 = gs at hmoved hmoved' ⊢
  induction hmoved generalizing gs with
  | nil =>
    cases hmoved'
    rfl
  | cons hf _ ih =>
    cases hmoved' with
    | cons hg hrest =>
      rw [map_cons, map_cons, ih _ hrest]
      cases hf with
      | span s =>
        cases hg
        rfl
      | directive hu =>
        cases hg with
        | directive hv =>
          rw [h _ _ _ hu hv]
          rfl

def Gives (cwd : Path) (content source : String) : Prop :=
  ∃ found d, ofText cwd "" content.toList = .ok found ∧ .directive d ∈ found.1 ∧ d.source = source

theorem exists_gives {content : String} (hx : ofText cwd b content.toList = .ok x) (hd : .directive d ∈ x.1) :
    ∃ source, Gives cwd content source ∧ resolveSource cwd b source = .ok d.source := by
  obtain ⟨found, hfound, hmoved⟩ := ofText_moved hx
  have hmem : ∃ f ∈ found.1, Moved cwd b f (.directive d) := by
    obtain ⟨i, hi, hget⟩ := mem_iff_getElem.1 hd
    exact ⟨_, get_mem _ _, (show x.1.get ⟨i, hi⟩ = _ from hget) ▸ hmoved.get (hmoved.length_eq ▸ hi) hi⟩
  obtain ⟨f, hf, hmoved⟩ := hmem
  cases hmoved with
  | directive hu => exact ⟨_, ⟨found, _, hfound, hf, rfl⟩, hu⟩

end Fragment

end

namespace Plan

theorem modernize_detached (r : Registry) (d : Directive) :
    (r.modernize d.detached).1 = (r.modernize d).1.detached := by
  simp only [Registry.modernize, Directive.detached]
  split <;> rfl

theorem modernizeAll_detached (r : Registry) (fragments : List Fragment) :
    (modernizeAll r (fragments.map Fragment.detached)).1 = (modernizeAll r fragments).1.map Fragment.detached := by
  induction fragments with
  | nil => rfl
  | cons f fragments ih =>
    cases f with
    | directive d => exact congrArg₂ (fun d rest => directive d :: rest) (modernize_detached r d) ih
    | span s => exact congrArg (span s :: ·) ih
    | text s => exact congrArg (text s :: ·) ih

theorem directivesFrom_detached (place : Nat) (fragments : List Fragment) :
    directivesFrom place (fragments.map detached) =
      (directivesFrom place fragments).map fun x => (x.1, x.2.detached) := by
  induction fragments generalizing place with
  | nil => rfl
  | cons f fragments ih =>
    cases f with
    | directive d => exact congrArg ((place, d.detached) :: ·) (ih (place + 1))
    | span _ => exact ih (place + 1)
    | text _ => exact ih (place + 1)

theorem wanted_detached (r : Registry) (fragments : List Fragment) : wanted r (fragments.map detached) =
      (wanted r fragments).map fun x => (x.1, x.2.detached) := by
  rw [wanted, directivesFrom_detached, filter_map]
  rfl

end Plan

end Transclude
