import Transclude.Proofs.Growth
import Transclude.Proofs.Loading

/-!
# What planning has no answer for

Planning keeps what is wrong with a source as statuses of its node (`Tells`). A few faults have no such answer and end
planning (`Unanswered`). Planning with the standard plugins ends with a tree that tells all, or at one of these
(`planFile_tells_or_unanswered`).
-/

namespace Transclude

open List Path Registry Except

/-! ## Faults of blocks -/

/-- Why the text of a block cannot even be refused: a scalar without value, an option without JSON form, or a null
character. -/
inductive Block.Unreadable (baseDir : String) (raw : List Char) : Crash → Prop where
  | scalar {fault : Yaml.Fault} : Yaml.read (String.ofList raw) = .error fault → fault ≠ .malformed →
      Unreadable baseDir raw (.yaml fault)
  | option {v w : Value} {entries : List (Value × Value)} {key : Value} {fault : Json.Unwritable} :
      Yaml.read (String.ofList raw) = .ok v → v.plain = .map entries → (key, w) ∈ entries →
      w.isCollection = true → Json.write w = .error fault → Unreadable baseDir raw (.unwritable fault)
  | source {v w : Value} {entries : List (Value × Value)} :
      Yaml.read (String.ofList raw) = .ok v → v.plain = .map entries → Value.get? entries "source" = some w →
      hasNull ((ofText baseDir).join (.ofText w.asText)).text = true →
      Unreadable baseDir raw .nullInPath

namespace Directive

variable {cwd : Path} {baseDir : String} {c : Crash}

theorem optionText_eq_error {w : Value} (h : optionText w = .error c) :
    w.isCollection = true ∧ ∃ fault, Json.write w = .error fault ∧ c = .unwritable fault := by
  rw [optionText] at h
  split_ifs at h with hcoll
  exact ⟨hcoll, of_mapError_eq_error h⟩

theorem readOptions_eq_error {options : Options} {entries : List (Value × Value)}
    (h : readOptions options entries = .error c) : ∃ key w, (key, w) ∈ entries ∧ optionText w = .error c := by
  induction entries generalizing options with
  | nil => cases h
  | cons e entries ih =>
    obtain ⟨key, w⟩ := e
    rw [readOptions] at h
    split_ifs at h
    · obtain ⟨key', w', hmem, hw⟩ := ih h
      exact ⟨key', w', mem_cons_of_mem _ hmem, hw⟩
    · rcases of_bind_eq_error h with hw | ⟨text, -, h⟩
      · exact ⟨key, w, mem_cons_self, hw⟩
      · obtain ⟨key', w', hmem, hw⟩ := ih h
        exact ⟨key', w', mem_cons_of_mem _ hmem, hw⟩

theorem resolveSource_eq_error {source : String} (h : resolveSource cwd baseDir source = .error c) :
    source ≠ "" ∧ hasNull ((ofText baseDir).join (.ofText source)).text = true ∧ c = .nullInPath := by
  rw [resolveSource] at h
  dsimp only at h
  split_ifs at h with hrel hnull
  cases h
  simp only [Bool.and_eq_true, bne_iff_ne, ne_eq] at hrel
  exact ⟨hrel.1.1, hnull, rfl⟩

theorem unreadable_of_read {raw : List Char} (h : read cwd baseDir raw = .error c) :
    Block.Unreadable baseDir raw c := by
  rw [read] at h
  split_ifs at h
  split at h
  · cases h
  · rename_i fault hne hyaml
    cases h
    exact .scalar hyaml hne
  · rename_i v hyaml
    split at h
    · rename_i entries hents
      split at h
      · cases h
      · rcases of_bind_eq_error h with hsrc | ⟨source, -, h⟩
        · obtain ⟨hne, hnull, rfl⟩ := resolveSource_eq_error hsrc
          cases hw : Value.get? entries "source" with
          | none => simp [hw] at hne
          | some w => exact .source hyaml hents hw (by simpa [hw] using hnull)
        · rcases of_bind_eq_error h with hoptions | ⟨options, -, h⟩
          · obtain ⟨key, w, hmem, hw⟩ := readOptions_eq_error hoptions
            obtain ⟨hcoll, fault, hwrite, rfl⟩ := optionText_eq_error hw
            exact .option hyaml hents hmem hcoll hwrite
          · cases h
    · cases h

end Directive

namespace Fragment

variable {cwd : Path} {baseDir : String} {c : Crash}

theorem exists_block_of_ofBlocks {position stop : Nat} {blocks : List Block}
    (h : ofBlocks cwd baseDir position stop blocks = .error c) :
    ∃ b ∈ blocks, Directive.read cwd baseDir b.raw = .error c := by
  induction blocks generalizing position with
  | nil => cases h
  | cons b blocks ih =>
    rcases of_bind_eq_error h with hread | ⟨made, -, h⟩
    · exact ⟨b, mem_cons_self, hread⟩
    · rcases of_bind_eq_error h with hrest | ⟨found, -, h⟩
      · obtain ⟨b', hb', hread'⟩ := ih hrest
        exact ⟨b', mem_cons_of_mem _ hb', hread'⟩
      · cases made <;> cases h

theorem exists_block_of_ofText {cs : List Char} (h : ofText cwd baseDir cs = .error c) :
    ∃ b ∈ (Block.all cs).blocks, Directive.read cwd baseDir b.raw = .error c := by
  rcases of_bind_eq_error h with hblocks | ⟨found, -, h⟩
  · exact exists_block_of_ofBlocks hblocks
  · cases h

end Fragment

/-! ## Faults of sources -/

theorem Desk.reads_eq_error {desk : Desk} {path : String} {c : Crash} (h : desk.reads path = .error c) :
    (c = .nullInPath ∧ hasNull path = true) ∨
    ∃ bytes fault, desk.objections path = .ok [] ∧ desk.disk.bytes (ofText path).text = .ok bytes ∧
      Utf8.decode bytes = .error fault ∧ c = .disk (.undecodable fault) := by
  rcases of_bind_eq_error h with hobj | ⟨errors, hobj, h⟩
  · rw [Cache.objections] at hobj
    split_ifs at hobj with hnull
    cases hobj
    exact .inl ⟨rfl, hnull⟩
  · cases errors with
    | cons e errors => cases h
    | nil =>
      have hfile := (Cache.refusal?_eq_none_iff.1 (Cache.objections_eq_nil_iff.1 hobj).2).2.1
      obtain ⟨bytes, hbytes⟩ := Disk.bytes_of_isFile hfile
      rcases of_bind_eq_error h with hread | ⟨text, -, h⟩
      · obtain ⟨fault, htext, rfl⟩ := of_mapError_eq_error hread
        rw [Disk.text, hbytes, ok_bind] at htext
        rcases of_bind_eq_error htext with hstep | ⟨_, -, htext⟩
        · obtain ⟨fault, hdecode, rfl⟩ := of_mapError_eq_error hstep
          exact .inr ⟨bytes, fault, hobj, hbytes, hdecode, rfl⟩
        · cases htext
      · cases h

namespace Plugin

variable {p : Plugin} {d : Directive} {c : Crash} {content : String}

theorem checkFilter_eq_error {filter : String} (h : checkFilter filter = .error c) :
    ∃ digits, Json.read filter = .error (.integer digits) ∧ c = .longInteger digits := by
  rw [checkFilter] at h
  split at h
  · cases h
  · cases h
  · rename_i digits hread
    cases h
    exact ⟨digits, hread, rfl⟩
  · cases h

theorem validate_eq_error (h : p.validate d = .error c) : p.behaviour = .table ∧
    ∃ filter digits, d.options.get? "filter" = some filter ∧ Json.read filter = .error (.integer digits) ∧
      c = .longInteger digits := by
  rw [validate] at h
  split at h
  case h_3 htable =>
    refine ⟨htable, ?_⟩
    rw [checkTable] at h
    split_ifs at h
    · cases h
    · cases hget : d.options.get? "filter" with
      | none =>
        rw [hget] at h
        cases h
      | some filter =>
        rw [hget] at h
        rcases of_bind_eq_error h with hfilt | ⟨_, -, h⟩
        · obtain ⟨digits, hread, rfl⟩ := checkFilter_eq_error hfilt
          exact ⟨filter, digits, rfl, hread, rfl⟩
        · cases h
  all_goals cases h

theorem readDelimited_eq_error {delimiter : Char} (h : Table.readDelimited delimiter content = .error c) :
    ∃ fault, Csv.records delimiter content.toList = .error fault ∧ c = .csv fault := by
  rcases of_bind_eq_error h with hrecords | ⟨records, -, h⟩
  · exact of_mapError_eq_error hrecords
  · cases records <;> cases h

theorem readJson_eq_error (h : Table.readJson content = .error c) :
    ∃ digits, Json.read content = .error (.integer digits) ∧ c = .longInteger digits := by
  rw [Table.readJson] at h
  split at h
  · rename_i digits hread
    cases h
    exact ⟨digits, hread, rfl⟩
  all_goals cases h

inductive RowsFail (format content : String) : Crash → Prop where
  | records {delimiter : Char} {fault : Csv.Fault} :
      (format = "csv" ∧ delimiter = ',' ∨ format = "tsv" ∧ delimiter = '\t') →
      Csv.records delimiter content.toList = .error fault → RowsFail format content (.csv fault)
  | number {digits : Nat} : format = "json" → Json.read content = .error (.integer digits) →
      RowsFail format content (.longInteger digits)

theorem readRows_eq_error {format select orderBy : String}
    (h : Table.readRows format select orderBy content = .error c) : RowsFail format content c := by
  unfold Table.readRows at h
  split at h
  · rcases of_bind_eq_error h with hrows | ⟨_, -, h⟩
    · obtain ⟨fault, hrecords, rfl⟩ := readDelimited_eq_error hrows
      exact .records (.inl ⟨rfl, rfl⟩) hrecords
    · cases h
  · rcases of_bind_eq_error h with hrows | ⟨_, -, h⟩
    · obtain ⟨fault, hrecords, rfl⟩ := readDelimited_eq_error hrows
      exact .records (.inr ⟨rfl, rfl⟩) hrecords
    · cases h
  · rcases of_bind_eq_error h with hrows | ⟨found, -, h⟩
    · obtain ⟨digits, hread, rfl⟩ := readJson_eq_error hrows
      exact .number rfl hread
    · cases found <;> cases h
  · cases h

theorem readSource_eq_error {cwd : Path} (h : p.readSource cwd d content = .error c) :
    p.behaviour = .table ∧ RowsFail (Query.formatOf d.source) content c := by
  rw [readSource] at h
  split at h
  · split at h <;> cases h
  · rename_i htable
    rcases of_bind_eq_error h with hrows | ⟨found, -, h⟩
    · exact ⟨htable, readRows_eq_error hrows⟩
    · cases found <;> cases h
  · cases h
  · cases h

end Plugin

namespace Plan

open Work

/-! ## Where planning is led -/

inductive Reaches (desk : Desk) (r : Registry) (root : Directive) : Directive → Prop where
  | root : Reaches desk r root root
  | follow {d : Directive} {content : String} {fragments : List Fragment} {refusals : List Refusal} {x : Placed} :
      Reaches desk r root d → desk.reads d.source = .ok (some content, []) →
      Fragment.ofText desk.disk.folder (folderOf d.source) content.toList = .ok (fragments, refusals) →
      x ∈ directivesFrom 0 (modernizeAll r fragments).1 → Reaches desk r root x.2

inductive Unanswered (desk : Desk) (r : Registry) (d : Directive) : Crash → Prop where
  | null : hasNull d.source = true → Unanswered desk r d .nullInPath
  | undecodable {bytes : ByteArray} {fault : Utf8.Fault} : desk.objections d.source = .ok [] →
      desk.disk.bytes (ofText d.source).text = .ok bytes → Utf8.decode bytes = .error fault →
      Unanswered desk r d (.disk (.undecodable fault))
  | block {content : String} {b : Block} {c : Crash} : desk.reads d.source = .ok (some content, []) →
      b ∈ (Block.all content.toList).blocks → Block.Unreadable (folderOf d.source) b.raw c →
      Unanswered desk r d c
  | filter {p : Plugin} {filter : String} {digits : Nat} : r.find? d.kind = some p → p.behaviour = .table →
      d.options.get? "filter" = some filter → Json.read filter = .error (.integer digits) →
      Unanswered desk r d (.longInteger digits)
  | rows {p : Plugin} {content : String} {c : Crash} : r.find? d.kind = some p → p.behaviour = .table →
      desk.reads d.source = .ok (some content, []) → Plugin.RowsFail (Query.formatOf d.source) content c →
      Unanswered desk r d c

def Escapes (desk : Desk) (r : Registry) (root : Directive) (c : Crash) : Prop :=
  ∃ d, Reaches desk r root d ∧ Unanswered desk r d c

/-! ## What the nodes tell -/

/-- Whether a node tells what is wrong with its source: a document was read and accepted, and its blocks without
directives are among the statuses; a node without one has an error, or no source. -/
structure Tells (desk : Desk) (s : Setting) (n : Node) : Prop where
  opened : n.document.isSome = true → ∃ content fragments refusals, Opened desk s n content fragments ∧
    Fragment.ofText desk.disk.folder (folderOf n.directive.source) content.toList = .ok (fragments, refusals) ∧
    ∀ refusal ∈ refusals, refusal.status ∈ n.status
  failed : n.document = none → n.directive.source ≠ "" → ∃ e ∈ n.status, e.isFailure = true
  bare : n.document = none → n.directive.source = "" →
    ∃ data, dataOf s.registry desk.disk.folder n.directive "" = .ok (data, n.status)

def Told (desk : Desk) (s : Setting) (root : Node) : Prop := ∀ n ∈ root.walk, Tells desk s n

def Standard (r : Registry) : Prop := ∀ e ∈ r.byKind, e.2 ∈ Plugin.Standard.all.map (·.2)

theorem Standard.of_find? {r : Registry} (h : Standard r) {kind : String} {p : Plugin} (hp : r.find? kind = some p) :
    p ∈ Plugin.Standard.all.map (·.2) := by
  exact h (kind, p) (mem_of_lookup hp)

theorem Standard.loadOne {enabled : Option (List String)} {at_ : Registry × List Registry.Rejection} {e : Entry}
    (h : Standard at_.1) (he : e ∈ Entry.standard) : Standard (loadOne enabled at_ e).1 := by
  obtain ⟨⟨name, p⟩, hp, rfl⟩ := mem_map.1 he
  rw [Registry.loadOne]
  split_ifs
  · exact h
  · rw [register]
    dsimp only
    split
    · exact h
    · intro e he
      rcases mem_values_assign.1 (mem_map_of_mem he) with hval | ⟨e', he', -, hval⟩
      · exact hval ▸ mem_map_of_mem hp
      · exact hval ▸ h e' he'

theorem standard_load (enabled : Option (List String)) : Standard (load {} Entry.standard enabled).1 := by
  refine List.foldlRecOn (motive := fun at_ : Registry × List Registry.Rejection => Standard at_.1) _ _
    (by simp [Standard]) fun at_ h e he => ?_
  exact h.loadOne ((sublist_firstOfModules [] Entry.standard).subset he)

section

variable {desk : Desk} {s : Setting} {above : List String} {x : Placed} {content : String} {n : Node}
  {root d : Directive} {c : Crash} {given : Option String} {errors : List Status} {data : Option Data}

theorem told_of_children_eq_nil (h : Tells desk s n) (hnil : n.children = []) : Told desk s n := by
  intro m hm
  rw [Node.walk_eq, hnil] at hm
  obtain rfl := mem_singleton.1 hm
  exact h

theorem told_failed {e : Status} {place : Nat} (hd : d.source ≠ "") (he : e ∈ errors)
    (hfail : e.isFailure = true) : Told desk s (.failed d place errors) := by
  refine told_of_children_eq_nil ⟨?_, fun _ _ => ⟨e, he, hfail⟩, fun _ h => absurd h hd⟩ rfl
  intro h
  cases h

theorem tells_bare (hnone : n.document = none) (hsrc : n.directive.source = "")
    (hdata : dataOf s.registry desk.disk.folder n.directive "" = .ok (data, n.status)) : Tells desk s n := by
  refine ⟨fun h => ?_, fun _ h => absurd hsrc h, fun _ _ => ⟨data, hdata⟩⟩
  rw [hnone] at h
  cases h

/-! ### Statuses of failures -/

theorem isFailure_of_readSource {p : Plugin} {cwd : Path} (hp : p ∈ Plugin.Standard.all.map (·.2))
    (h : p.readSource cwd d content = .ok (data, errors)) : ∀ e ∈ errors, e.isFailure = true := by
  rw [Plugin.readSource] at h
  split at h
  · split at h
    · cases h
      simp
    · cases h
      simp [Status.isFailure, Status.error]
  · obtain ⟨rows, -, h⟩ := of_bind_eq_ok h
    cases rows with
    | ok rows =>
      cases h
      simp
    | error problems =>
      cases h
      simp [Status.isFailure, Status.error]
  · rename_i hcustom
    simp only [Plugin.Standard.all, map_cons, map_nil, mem_cons, not_mem_nil, or_false] at hp
    rcases hp with rfl | rfl | rfl | rfl | rfl | rfl | rfl <;> cases hcustom
  · cases h
    simp

/-! ### Planning -/

theorem unanswered_of_dataOf (hreads : desk.reads d.source = .ok (some content, []))
    (h : dataOf s.registry desk.disk.folder d content = .error c) : Unanswered desk s.registry d c := by
  rw [dataOf] at h
  split at h
  · cases h
  · rename_i p hp
    obtain ⟨htable, hrows⟩ := Plugin.readSource_eq_error h
    exact .rows hp htable hreads hrows

theorem unanswered_of_check (h : check s.registry x = .error c) : Unanswered desk s.registry x.2 c := by
  rw [check] at h
  split at h
  · cases h
  · rename_i p hp
    obtain ⟨htable, filter, digits, hfilt, hread, rfl⟩ := Plugin.validate_eq_error h
    exact .filter hp htable hfilt hread

theorem unanswered_of_reads (h : desk.reads d.source = .error c) : Unanswered desk s.registry d c := by
  rcases Desk.reads_eq_error h with ⟨rfl, hnull⟩ | ⟨bytes, fault, hobj, hbytes, hdecode, rfl⟩
  · exact .null hnull
  · exact .undecodable hobj hbytes hdecode

theorem dataOf_ne_error (hd : d.source = "") : dataOf s.registry desk.disk.folder d "" ≠ .error c := by
  rw [dataOf]
  split
  · exact fun h => by cases h
  · intro h
    have hrows := (Plugin.readSource_eq_error h).2
    have hformat : Query.formatOf "" = "" := by decide
    rw [hd, hformat] at hrows
    generalize hempty : "" = format at hrows
    cases hrows with
    | records h _ =>
      subst hempty
      simp at h
    | number h _ =>
      subst hempty
      simp at h

theorem Found.reaches (h : Found desk.world s.registry root none d) : Reaches desk s.registry root d := by
  induction h with
  | here hholds hx => exact .follow .root hholds.supplied hholds.cut hx
  | further _ hholds hx ih => exact .follow ih hholds.supplied hholds.cut hx

theorem Led.reaches (h : Led desk.world s.registry root none d given) :
    given = none ∧ Reaches desk s.registry root d := by
  cases h with
  | root => exact ⟨rfl, .root⟩
  | found hfound => exact ⟨rfl, hfound.reaches⟩

theorem Stops.escapes (h : Stops desk.world s.registry root none c) : Escapes desk s.registry root c := by
  cases h with
  | source hfound hfails => exact ⟨_, hfound.reaches, unanswered_of_reads (s := s) hfails⟩
  | check hfound hcheck => exact ⟨_, hfound.reaches, unanswered_of_check hcheck⟩
  | bare _ hsrc hbare => exact absurd hbare (dataOf_ne_error hsrc)
  | cut hled hreads hcut =>
    obtain ⟨rfl, hreaches⟩ := hled.reaches
    obtain ⟨b, hb, hread⟩ := Fragment.exists_block_of_ofText hcut
    exact ⟨_, hreaches, .block hreads hb (Directive.unreadable_of_read hread)⟩
  | data hled hreads hdata =>
    obtain ⟨rfl, hreaches⟩ := hled.reaches
    exact ⟨_, hreaches, unanswered_of_dataOf hreads hdata⟩

theorem Made.told {room : Nat} (hr : Standard s.registry) (h : Made desk.world s room above given n)
    (hgiven : given = none) (hsrc : n.directive.source ≠ "") : Told desk s n := by
  induction h with
  | refused hreads hnone =>
    obtain ⟨text, rfl, rfl⟩ | ⟨e, rest, rfl, rfl, hobj⟩ := Desk.reads_cases hreads
    · exact absurd rfl (hnone text rfl)
    · exact told_failed hsrc mem_cons_self (Desk.isFailure_of_objections hobj e mem_cons_self)
  | unread _ hdata =>
    refine told_failed hsrc mem_cons_self ?_
    rw [dataOf] at hdata
    split at hdata
    · cases hdata
    · rename_i p hp
      exact isFailure_of_readSource (hr.of_find? hp) hdata _ mem_cons_self
  | @document room above given n content fragments refusals checked built bare hdrawn hsort hkids _ ih =>
    subst hgiven
    intro m hm
    rw [Node.walk_eq] at hm
    rcases mem_cons.1 hm with rfl | hm
    · have hnone : m.document ≠ none := by simp [hdrawn.document]
      refine ⟨fun _ => ⟨content, fragments, refusals, ?_, hdrawn.cut, hdrawn.refused⟩, fun h => absurd h hnone,
        fun h => absurd h hnone⟩
      exact ⟨hdrawn.supplied, ⟨refusals, hdrawn.cut⟩, hdrawn.document, hdrawn.accepted⟩
    · obtain ⟨c, hc, hm⟩ := mem_flatMap.1 hm
      rw [hkids, mem_append, mem_append] at hc
      rcases hc with (hc | hc) | hc
      · exact ih c hc rfl (hsort.of_mem_built hc).2.1 m hm
      · obtain ⟨z, hz, hc⟩ := mem_filterMap.1 hc
        obtain ⟨e, he, rfl⟩ := Option.map_eq_some_iff.1 hc
        have hjudged := hsort.judged z hz
        rw [he] at hjudged
        exact told_failed (hsort.source_ne hz) mem_cons_self hjudged.isFailure m hm
      · have hbare := hsort.sourceless c hc
        obtain ⟨data, hdata⟩ := hbare.data
        exact told_of_children_eq_nil (tells_bare hbare.document hbare.source hdata) hbare.children m hm

end

theorem outcome_planFile {desk : Desk} {r : Registry} (hr : Standard r) (hdesk : desk.cache.Faithful desk.disk)
    (config : Config) (path : String) :
    Outcome (Told desk (settingOf config r)) (fun c => c = .nullInPath ∧ hasNull path = true ∨
        Escapes desk r (Subject.directive config desk.disk.folder (.file path)) c)
      ((planFile config r path).run desk).1 := by
  have hplan := even_plan config r (.file path) (answers_twins desk) (fun _ _ => trivial) (fun _ _ _ => trivial)
  refine (Steady.outcome hplan (Desk.twin_refl hdesk)).imp (fun root hroot => hroot.made.told hr rfl ?_) fun c hc => ?_
  · rw [hroot.directive_eq]
    simpa [Subject.directive, Subject.source] using text_ne_empty _
  · rcases hc with ⟨_, ⟨⟩, hnull | hfails⟩ | hstops
    · exact .inl hnull
    · exact .inr ⟨_, .root, unanswered_of_reads (s := settingOf config r) hfails⟩
    · exact .inr (Stops.escapes (s := settingOf config r) hstops)

namespace Pair

/-- A desk with an empty cache and two documents, of which the first embeds the second. -/
def desk (second : ByteArray) : Desk where
  disk :=
    { folder := { root := "/", parts := ["p"] }
      entries := [(["p"], .folder), (["p", "a.md"], .file "```yaml embedm\ntype: file\nsource: b.md\n```\n".toUTF8),
        (["p", "b.md"], .file second)] }
  cache := { maxFile := .int 1048576, limit := 104857600, allowed := ["."], overwrites := false,
             entries := [], memory := 0 }

def registry : Registry := (load {} Entry.standard none).1

def crash? (second : ByteArray) : Option Crash :=
  match (planFile {} registry "a.md").run (desk second) with
  | (.ok _, _) => none
  | (.error c, _) => some c

end Pair

end Plan

end Transclude
