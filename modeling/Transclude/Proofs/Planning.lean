import Transclude.Proofs.Plans

/-!
# Planning goes through

On a disk whose files are texts, with blocks that can be read and plugins that do not crash, planning ends with a tree
in which everything has its place (`WellPlanned`), or it met a source with a null character.
-/

namespace Transclude.Plan

open Work Directive Fragment Except

/-! ## What planning comes upon -/

def Occurs (cwd : Path) (document : String → String → Prop) (d : Directive) : Prop :=
  ∃ source content fragments refusals, document source content ∧
    ofText cwd (folderOf source) content.toList = .ok (fragments, refusals) ∧
    ∃ place, (place, d) ∈ directivesFrom 0 fragments

structure Calm (r : Registry) (disk : Disk) (document : String → String → Prop) (root : Directive) : Prop where
  decodes : disk.Decodes
  files : ∀ source content, disk.text (Path.ofText source).text = .ok content → document source content
  parses : ∀ source content, document source content →
    ∃ found, ofText disk.folder (folderOf source) content.toList = .ok found
  validates : ∀ d, Occurs disk.folder document d → ∀ p, r.find? (r.modernize d).1.kind = some p →
    ∃ problems, p.validate (r.modernize d).1 = .ok problems
  normalizes : ∀ d, Occurs disk.folder document d → ∀ p, r.find? (r.modernize d).1.kind = some p →
    ∀ content, document d.source content ∨ d.source = "" ∧ content = "" →
      ∃ found, p.readSource disk.folder (r.modernize d).1 content = .ok found
  normalizes_root : ∀ p, r.find? root.kind = some p → ∀ content, document root.source content →
    ∃ found, p.readSource disk.folder root content = .ok found

def NullMet (met : String → Prop) (c : Crash) : Prop := c = .nullInPath ∧ ∃ source, met source ∧ Path.hasNull source

section

variable {r : Registry} {s : Setting} {disk : Disk} {document : String → String → Prop} {root d : Directive}
  {met : String → Prop}

theorem modernize_source (r : Registry) (d : Directive) : (r.modernize d).1.source = d.source := by
  rw [Registry.modernize]
  dsimp only
  split
  · rfl
  · rfl

theorem exists_of_mem_modernizeAll {place : Nat} {fragments : List Fragment} {x : Placed}
    (h : x ∈ directivesFrom place (modernizeAll r fragments).1) :
    ∃ d, (x.1, d) ∈ directivesFrom place fragments ∧ x.2 = (r.modernize d).1 := by
  induction fragments generalizing place with
  | nil => cases h
  | cons f fragments ih =>
    cases f with
    | directive d =>
      rcases List.mem_cons.1 h with rfl | h
      · exact ⟨d, List.mem_cons_self, rfl⟩
      · obtain ⟨d', hd, he⟩ := ih h
        exact ⟨d', List.mem_cons_of_mem _ hd, he⟩
    | span _ => exact ih h
    | text _ => exact ih h

/-! ## Whole plans -/

namespace Subject

def Document (disk : Disk) (subject : Subject) (source content : String) : Prop :=
  disk.text (Path.ofText source).text = .ok content ∨ subject = .text content ∧ source = subject.source disk.folder

def Meets (disk : Disk) (subject : Subject) (path : String) : Prop :=
  (∃ d, Occurs disk.folder (subject.Document disk) d ∧ d.source = path) ∨
    ∃ given, subject = .file given ∧ (path = given ∨ path = subject.source disk.folder)

end Subject

def worldOf (disk : Disk) : World where
  folder := disk.folder
  reads path found := ∀ text, found.1 = some text → disk.text (Path.ofText path).text = .ok text
  objects _ _ := True
  fails path c := c = .nullInPath ∧ Path.hasNull path

theorem answers_mirrors (hdisk : disk.Decodes) :
    Answers (worldOf disk) (fun _ => True) (Alone (Desk.Mirrors disk)) where
  folder := by
    rintro d _ ⟨rfl, rfl, -⟩
    exact ⟨rfl, rfl⟩
  validate := by
    rintro path d _ - ⟨rfl, -⟩
    exact ⟨rfl, (outcome_self _).imp (fun _ _ => trivial) fun _ hc => Cache.validate_eq_error hc⟩
  readFile := by
    intro path _
    refine even_alone fun d hd => ?_
    exact mirrors_readFile hdisk hd

variable {config : Config} {subject : Subject}

theorem Led.opens {given : Option String} {content : String}
    (hd : Led (worldOf disk) r (subject.directive config disk.folder) subject.given d given)
    (h : Supplied (worldOf disk) given d.source content) : subject.Document disk d.source content := by
  cases hd with
  | found => exact .inl (h content rfl)
  | root =>
    cases subject with
    | file path => exact .inl (h content rfl)
    | text text =>
      obtain rfl : text = content := h
      exact .inr ⟨rfl, rfl⟩

theorem Found.occurs (h : Found (worldOf disk) r (subject.directive config disk.folder) subject.given d) :
    ∃ d₀, Occurs disk.folder (subject.Document disk) d₀ ∧ d = (r.modernize d₀).1 := by
  have hmem {d : Directive} {given : Option String} {content : String} {fragments : List Fragment}
      {refusals : List Refusal} {x : Placed}
      (hled : Led (worldOf disk) r (subject.directive config disk.folder) subject.given d given)
      (hholds : Holds (worldOf disk) r given d content fragments refusals)
      (hx : x ∈ directivesFrom 0 (modernizeAll r fragments).1) :
      ∃ d₀, Occurs disk.folder (subject.Document disk) d₀ ∧ x.2 = (r.modernize d₀).1 := by
    obtain ⟨d₀, hd₀, he⟩ := exists_of_mem_modernizeAll hx
    exact ⟨d₀, ⟨_, _, _, _, hled.opens hholds.supplied, hholds.cut, _, hd₀⟩, he⟩
  cases h with
  | here hholds hx => exact hmem .root hholds hx
  | further hfound hholds hx => exact hmem (.found hfound) hholds hx

section Calm

variable (calm : Calm r disk (subject.Document disk) (subject.directive config disk.folder))
include calm

theorem Stops.nullMet {c : Crash} (h : Stops (worldOf disk) r (subject.directive config disk.folder) subject.given c) :
    NullMet (subject.Meets disk) c := by
  have hdata {d : Directive} {content : String} (hd : ∀ p, r.find? d.kind = some p →
      ∃ found, p.readSource disk.folder d content = .ok found) : dataOf r disk.folder d content ≠ .error c := by
    rw [dataOf]
    split
    · exact fun h => by cases h
    · rename_i p hp
      obtain ⟨found, hfound⟩ := hd p hp
      exact fun h => by cases hfound.symm.trans h
  cases h with
  | source hfound hfails =>
    obtain ⟨d₀, hocc, rfl⟩ := hfound.occurs
    rw [modernize_source] at hfails
    exact ⟨hfails.1, _, .inl ⟨d₀, hocc, rfl⟩, hfails.2⟩
  | check hfound hcheck =>
    obtain ⟨d₀, hocc, rfl⟩ := hfound.occurs
    rw [Plan.check] at hcheck
    split at hcheck
    · cases hcheck
    · rename_i p hp
      obtain ⟨problems, hprobs⟩ := calm.validates d₀ hocc p hp
      cases hprobs.symm.trans hcheck
  | bare hfound hsrc hbare =>
    obtain ⟨d₀, hocc, rfl⟩ := hfound.occurs
    rw [modernize_source] at hsrc
    exact absurd hbare (hdata fun p hp => calm.normalizes d₀ hocc p hp "" (.inr ⟨hsrc, rfl⟩))
  | cut hled hcont hcut =>
    obtain ⟨found, hfound⟩ := calm.parses _ _ (hled.opens hcont)
    cases hfound.symm.trans hcut
  | data hled hcont hfails =>
    have hdoc := hled.opens hcont
    cases hled with
    | root => exact absurd hfails (hdata fun p hp => calm.normalizes_root p hp _ hdoc)
    | found hfound =>
      obtain ⟨d₀, hocc, rfl⟩ := hfound.occurs
      rw [modernize_source] at hdoc
      exact absurd hfails (hdata fun p hp => calm.normalizes d₀ hocc p hp _ (.inl hdoc))

theorem outcome_plan {desk : Desk} (hdesk : desk.Mirrors disk) :
    Outcome (fun _ => True) (NullMet (subject.Meets disk)) ((subject.plan config r).run desk).1 := by
  refine (even_plan config r subject (answers_mirrors calm.decodes) (fun _ _ => trivial) (fun _ _ _ => trivial) desk desk
    ⟨rfl, hdesk⟩).outcome.imp (fun _ _ => trivial) fun c hc => ?_
  rcases hc with ⟨path, rfl, ⟨rfl, hnull⟩ | ⟨rfl, hnull⟩⟩ | hstops
  · exact ⟨rfl, path, .inr ⟨path, rfl, .inl rfl⟩, hnull⟩
  · exact ⟨rfl, _, .inr ⟨path, rfl, .inr rfl⟩, hnull⟩
  · exact hstops.nullMet calm

end Calm

/-- Documents lie no deeper than `max`; a node without a document has no children; and a document has a child for each
directive with a source or a plugin, no two at one place. -/
structure WellPlanned (r : Registry) (max : Nat) (root : Node) : Prop where
  document_depth : ∀ k n, root.AtDepth k n → n.document.isSome → k ≤ max
  depth : ∀ k n, root.AtDepth k n → k ≤ max + 1
  bare : ∀ k n, root.AtDepth k n → n.document = none → n.children = []
  children : ∀ k n fragments, root.AtDepth k n → n.document = some fragments →
    (n.children.map Node.label).Perm (wanted r fragments) ∧ (n.children.map (·.place)).Nodup
  compiled : ∀ k n fragments, root.AtDepth k n → n.document = some fragments →
    ∀ x ∈ directivesFrom 0 fragments, x.2.source ≠ "" → ∀ s : Compile.Setting, ∃ c ∈ n.children, c.label = x ∧ ∀ parent,
        Compile.standIn s (Compile.compileAll s n.children) parent x.1 x.2 =
          match s.registry.find? x.2.kind with
          | none => pure (Embed.errorNote [noPlugin x.2.kind])
          | some p => Compile.actionOf s c p parent

theorem Planned.wellPlanned {max : Nat} {n : Node} (h : Planned r (max + 1) n) : WellPlanned r max n where
  document_depth _ _ hn hd := h.document_depth_le hn hd
  depth _ _ hn := h.depth_le hn
  bare _ _ hn hd := by
    obtain ⟨_, -, hp⟩ := h.atDepth hn
    exact hp.children_eq_nil hd
  children _ _ _ hn hd := by
    obtain ⟨_, -, hp⟩ := h.atDepth hn
    exact ⟨hp.children_perm hd, hp.nodup_places hd⟩
  compiled _ _ _ hn hd x hx hsrc s := by
    obtain ⟨_, -, hp⟩ := h.atDepth hn
    obtain ⟨c, hc, hlabel, hlookup⟩ := hp.exists_child hd (List.mem_filter.2 ⟨hx, by simp [hsrc]⟩) s
    refine ⟨c, hc, hlabel, fun parent => ?_⟩
    unfold Compile.standIn
    cases s.registry.find? x.2.kind with
    | none => rfl
    | some p => simp only [hlookup]

end

/-! ## Two documents

A disk with one document in one folder. Its only directive names the document itself, or a path with a null
character: the blocks can be read and the plugin has nothing against the directive in either case.
-/

namespace Sole

variable {raw : List Char}

def directive (source baseDir : String) : Directive :=
  { kind := "file", source, options := [], baseDir }

def disk (text : String) : Disk where
  folder := { root := "/", parts := ["p"] }
  entries := [(["p"], .folder), (["p", "a.md"], .file text.toUTF8)]

def desk (text : String) : Desk where
  disk := disk text
  cache := { maxFile := .int 1048576, limit := 104857600, allowed := ["."], overwrites := false,
             entries := [], memory := 0 }

def registry : Registry := ({} : Registry).put "file plugin" Plugin.Standard.file

theorem desk_mirrors (text : String) : (desk text).Mirrors (disk text) := ⟨rfl, Cache.mirrors_of_entries_eq_nil rfl⟩

variable {text source : String}

def entries (source : String) : List (Value × Value) := [(.text "type", .text "file"), (.text "source", .text source)]

def asks (source : String) (raw : List Char) : Bool :=
  match Yaml.read (String.ofList raw) with
  | .ok (.map [(.text key, .text kind), (.text key', .text path)]) =>
    [key, kind, key', path] == ["type", "file", "source", source]
  | _ => false

theorem yaml_eq (h : asks source raw = true) : Yaml.read (String.ofList raw) = .ok (.map (entries source)) := by
  unfold asks at h
  split at h
  · rename_i hread
    rw [hread]
    simp_all [entries]
  · cases h

theorem read_eq (cwd : Path) (baseDir : String) (hblank : Text.allBlank raw = false)
    (hasks : asks source raw = true) (habs : (Path.ofText source).isAbsolute = true) :
    read cwd baseDir raw = .ok (.ok (directive source baseDir)) := by
  have hsrc : resolveSource cwd baseDir source = .ok source := by simp [resolveSource, habs]
  rw [Directive.read, if_neg (by simp [hblank]), yaml_eq hasks]
  change (do
    let source ← resolveSource cwd baseDir source
    let options ← readOptions [] (entries _)
    return Except.ok (mk "file" source options baseDir)) = _
  rw [hsrc]
  rfl

theorem ofText_eq {b : Block} (cwd : Path) (baseDir : String)
    (hfirst : Block.firstFrom 0 text.toList = (.block b, [])) (hstart : b.start = 0)
    (hstop : b.stop = text.toList.length)
    (hread : read cwd baseDir b.raw = .ok (.ok (directive source baseDir))) :
    ofText cwd baseDir text.toList = .ok ([.directive (directive source baseDir)], []) := by
  have hend : Block.allFrom b.stop [] = { blocks := [], unclosed := none } := by
    rw [Block.allFrom]
    rfl
  have hall : Block.all text.toList = { blocks := [b], unclosed := none } := by
    rw [Block.all, Block.allFrom]
    split
    · rename_i h
      cases hfirst.symm.trans h
    · rename_i h
      cases hfirst.symm.trans h
    · rename_i h
      cases hfirst.symm.trans h
      rw [hend]
  rw [ofText, hall]
  simp [ofBlocks, ofBlocks.spanTo, hread, hstart, hstop, Block.Scan.stop, ok_bind]
  rfl

theorem find?_eq {kind : String} {p : Plugin} (h : registry.find? kind = some p) : p = Plugin.Standard.file := by
  have hkind : registry.byKind = [("file", Plugin.Standard.file)] := rfl
  rw [Registry.find?, hkind, List.lookup_cons] at h
  split at h
  · exact (Option.some.inj h).symm
  · cases h

section

variable (hdecode : Utf8.decode text.toUTF8 = .ok text)
  (hlines : Text.universalNewlines text.toList = text.toList)
include hdecode hlines

theorem text_eq {path content : String} (h : (disk text).text path = .ok content) : content = text := by
  rw [Disk.text] at h
  cases hb : (disk text).bytes path with
  | error f =>
    rw [hb] at h
    cases h
  | ok bytes =>
    obtain ⟨place, hmem⟩ := Disk.mem_of_bytes hb
    obtain ⟨-, rfl⟩ : place = ["p", "a.md"] ∧ bytes = text.toUTF8 := by simpa [disk] using hmem
    rw [hb, ok_bind, hdecode] at h
    change Except.ok (String.ofList (Text.universalNewlines text.toList)) = _ at h
    rw [hlines, String.ofList_toList] at h
    exact (Except.ok.inj h).symm

theorem calm (root : Directive) (hparse : ∀ baseDir, ∃ found,
      ofText (disk text).folder baseDir text.toList = .ok found) :
    Calm registry (disk text) (Subject.Document (disk text) (.file "a.md")) root where
  decodes path bytes hb := by
    obtain ⟨place, hmem⟩ := Disk.mem_of_bytes hb
    obtain ⟨-, rfl⟩ : place = ["p", "a.md"] ∧ bytes = text.toUTF8 := by simpa [disk] using hmem
    exact ⟨text, hdecode⟩
  files _ _ h := .inl h
  parses source content h := by
    rcases h with h | ⟨h, -⟩
    · rw [text_eq hdecode hlines h]
      exact hparse _
    · cases h
  validates _ _ p hp := by
    rw [find?_eq hp]
    exact ⟨_, rfl⟩
  normalizes _ _ p hp _ _ := by
    rw [find?_eq hp]
    exact ⟨_, rfl⟩
  normalizes_root p hp _ _ := by
    rw [find?_eq hp]
    exact ⟨_, rfl⟩

end

def loop : String := "```yaml embedm\ntype: file\nsource: \"/p/a.md\"\n```\n"

def null : String := "```yaml embedm\ntype: file\nsource: \"/a\\0b.md\"\n```\n"

theorem asks_path : asks "/p/a.md" "type: file\nsource: \"/p/a.md\"\n".toList = true ∧
    asks "/a\x00b.md" "type: file\nsource: \"/a\\0b.md\"\n".toList = true := by
  decide +kernel

theorem ofText_loop (cwd : Path) (baseDir : String) :
    ofText cwd baseDir loop.toList = .ok ([.directive (directive "/p/a.md" baseDir)], []) :=
  ofText_eq cwd baseDir (b := ⟨"type: file\nsource: \"/p/a.md\"\n".toList, 0, 48⟩) rfl rfl rfl
    (read_eq cwd baseDir rfl asks_path.1 rfl)

theorem ofText_null (cwd : Path) (baseDir : String) :
    ofText cwd baseDir null.toList = .ok ([.directive (directive "/a\x00b.md" baseDir)], []) :=
  ofText_eq cwd baseDir (b := ⟨"type: file\nsource: \"/a\\0b.md\"\n".toList, 0, 49⟩) rfl rfl rfl
    (read_eq cwd baseDir rfl asks_path.2 rfl)

theorem calm_loop (root : Directive) : Calm registry (disk loop) (Subject.Document (disk loop) (.file "a.md")) root :=
  calm rfl rfl root fun baseDir => ⟨_, ofText_loop _ baseDir⟩

theorem calm_null (root : Directive) : Calm registry (disk null) (Subject.Document (disk null) (.file "a.md")) root :=
  calm rfl rfl root fun baseDir => ⟨_, ofText_null _ baseDir⟩

theorem isOk_plan : (((Subject.file "a.md").plan {} registry).run (desk loop)).1.isOk = true ∧
    (((Subject.file "a.md").plan {} registry).run (desk null)).1.isOk = false := by
  decide +kernel

end Sole

open Sole

end Transclude.Plan
