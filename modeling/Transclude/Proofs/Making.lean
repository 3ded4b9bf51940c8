import Mathlib.Data.List.Forall2
import Transclude.Compile
import Transclude.Proofs.Reading

/-!
# What planning does

Planning asks a desk for the folder it starts in, for what is wrong with paths and for the texts of files. On desks that
answer alike it comes to the same (`Answers`): to a node that is `Made` of these answers, or to a crash where planning
`Stops`. All that is known of plans follows from these two.
-/

namespace Transclude

open List Plan Work Path

variable {r : Registry} {s : Setting} {w : World} {root : Node} {room : Nat}

def Node.label (n : Node) : Placed := (n.place, n.directive)

namespace Plan

/-! ## Steps of planning -/

def folderOf (source : String) : String := if source.isEmpty then "" else (ofText source).parent.text

def tooDeep (s : Setting) : Status := .error s!"max recursion depth ({s.maxRecursion.text}) reached"

def check (r : Registry) (x : Placed) : Except Crash (List Status) :=
  match r.find? x.2.kind with
  | none => .ok [Status.error (noPlugin x.2.kind)]
  | some p => p.validate x.2

theorem exists_check_of_checkAll {directives : List Placed} {c : Crash} (h : checkAll r directives = .error c) : ∃ x ∈ directives, check r x = .error c := by
  rcases Except.of_bind_eq_error h with hmap | ⟨_, -, h⟩
  · clear h
    induction directives with
    | nil => cases hmap
    | cons x directives ih =>
      rw [mapM_cons] at hmap
      rcases Except.of_bind_eq_error hmap with hcheck | ⟨_, -, hmap⟩
      · exact ⟨x, mem_cons_self, hcheck⟩
      · rcases Except.of_bind_eq_error hmap with hrest | ⟨_, -, hmap⟩
        · obtain ⟨y, hy, hcheck⟩ := ih hrest
          exact ⟨y, mem_cons_of_mem _ hy, hcheck⟩
        · cases hmap
  · cases h

def dataOf (r : Registry) (cwd : Path) (d : Directive) (content : String) : Except Crash (Option Data × List Status) :=
  match r.find? d.kind with
  | none => .ok (none, [])
  | some p => p.readSource cwd d content

def readData (r : Registry) (d : Directive) (content : String) : Work (Option Data × List Status) :=
  match r.find? d.kind with
  | none => pure (none, [])
  | some p => do Work.lift (p.readSource (← get).disk.folder d content)

def planChild (s : Setting) (above : List String) : Nat → Placed → Work Node
  | 0, x => pure (.failed x.2 x.1 [])
  | room + 1, x => do
    match ← Work.readFile x.2.source with
    | (some text, []) => planLoaded s room (x.2.source :: above) x text
    | (_, errors) => return .failed x.2 x.1 errors

theorem planLoaded_eq (room : Nat) (above : List String) (x : Placed) (content : String) :
    planLoaded s room above x content = (do
      let (data, errors) ← readData s.registry x.2 content
      if !errors.isEmpty then return .failed x.2 x.1 errors
      planDocument s above room (planChild s above room) x.1 x.2 content data) := by
  cases room
  all_goals
    rw [planLoaded, readData]
    cases s.registry.find? x.2.kind <;> rfl

def broken (checked : List (Placed × Option Status)) : List Node :=
  checked.filterMap fun x => x.2.map fun e => Node.failed x.1.2 x.1.1 [e]

/-! ## Answers -/

/-- What planning may be answered: the folder it starts in, what paths are read as, what is said against them and what
they crash with. -/
structure World where
  folder : Path
  reads : String → Option String × List Status → Prop
  objects : String → List Status → Prop
  fails : String → Crash → Prop

structure Answers (w : World) (known : String → Prop) (A : Desk → Desk → Prop) : Prop where
  folder : ∀ {d d'}, A d d' → d.disk.folder = w.folder ∧ d'.disk.folder = w.folder
  validate : ∀ {path d d'}, known path → A d d' → d'.cache.validate d'.disk path = d.cache.validate d.disk path ∧
      Outcome (w.objects path) (w.fails path) (d.cache.validate d.disk path)
  readFile : ∀ {path}, known path → Even A (w.reads path) (w.fails path) (readFile path)

/-! ## Nodes -/

inductive Judged (w : World) (s : Setting) (above : List String) (room : Nat) (d : Directive) : Option Status → Prop
  | circular : d.source ∈ above →
      Judged w s above room d (some (.error s!"circular dependency detected: '{Path.shorten w.folder d.source}'"))
  | deep : d.source ∉ above → room = 0 → Judged w s above room d (some (tooDeep s))
  | checked {errors : List Status} : d.source ∉ above → room ≠ 0 → w.objects d.source errors →
      Judged w s above room d errors.head?

structure Bare (w : World) (r : Registry) (n : Node) : Prop where
  source : n.directive.source = ""
  document : n.document = none
  children : n.children = []
  data : ∃ data, dataOf r w.folder n.directive "" = .ok (data, n.status)

/-- The children of a document: those of sources that are planned, of those that are not, and of directives without
one. -/
structure Sorted (w : World) (s : Setting) (above : List String) (room : Nat) (directives : List Placed)
    (checked : List (Placed × Option Status)) (built bare : List Node) : Prop where
  labels : checked.map (·.1) = directives.filter fun x => !x.2.source.isEmpty
  judged : ∀ z ∈ checked, Judged w s above room z.1.2 z.2
  planned : built.map Node.label = (checked.filter (·.2.isNone)).map (·.1)
  unsourced : bare.map Node.label =
    (directives.filter fun x => x.2.source.isEmpty).filter fun x => (s.registry.find? x.2.kind).isSome
  sourceless : ∀ n ∈ bare, Bare w s.registry n

/-- Whether a text is the content of a source: the one that is given, or else one that is read. -/
def Supplied (w : World) (given : Option String) (source content : String) : Prop :=
  given.elim (w.reads source (some content, [])) (· = content)

structure Holds (w : World) (r : Registry) (given : Option String) (d : Directive) (content : String)
    (fragments : List Fragment) (refusals : List Refusal) : Prop where
  supplied : Supplied w given d.source content
  accepted : ∃ data, dataOf r w.folder d content = .ok (data, [])
  cut : Fragment.ofText w.folder (folderOf d.source) content.toList = .ok (fragments, refusals)

structure Drawn (w : World) (s : Setting) (given : Option String) (n : Node) (content : String)
    (fragments : List Fragment) (refusals : List Refusal) : Prop
    extends Holds w s.registry given n.directive content fragments refusals where
  document : n.document = some (modernizeAll s.registry fragments).1
  refused : ∀ refusal ∈ refusals, refusal.status ∈ n.status

/-- The nodes that planning makes of directives with a source; `above` are the sources from this one up. -/
inductive Made (w : World) (s : Setting) : Nat → List String → Option String → Node → Prop
  | refused {room : Nat} {above : List String} {d : Directive} {place : Nat} {value : Option String}
      {errors : List Status} : w.reads d.source (value, errors) → (∀ text, value = some text → errors ≠ []) →
      Made w s room above none (.failed d place errors)
  | unread {room : Nat} {above : List String} {given : Option String} {d : Directive} {place : Nat} {content : String}
      {data : Option Data} {e : Status} {errors : List Status} : Supplied w given d.source content →
      dataOf s.registry w.folder d content = .ok (data, e :: errors) →
      Made w s room above given (.failed d place (e :: errors))
  | document {room : Nat} {above : List String} {given : Option String} {n : Node} {content : String}
      {fragments : List Fragment} {refusals : List Refusal} {checked : List (Placed × Option Status)}
      {built bare : List Node} : Drawn w s given n content fragments refusals →
      Sorted w s above room (directivesFrom 0 (modernizeAll s.registry fragments).1) checked built bare →
      n.children = built ++ broken checked ++ bare →
      (∀ c ∈ built, Made w s (room - 1) (c.directive.source :: above) none c) → Made w s room above given n

theorem Judged.of_none {above : List String} {d : Directive} (h : Judged w s above room d none) : d.source ∉ above ∧ room ≠ 0 ∧ w.objects d.source [] := by
  generalize hfound : (none : Option Status) = found at h
  cases h with
  | circular => cases hfound
  | deep => cases hfound
  | checked habove hroom herrors =>
    rw [List.head?_eq_none_iff.1 hfound.symm] at herrors
    exact ⟨habove, hroom, herrors⟩

theorem Sorted.of_mem_built {above : List String} {directives : List Placed}
    {checked : List (Placed × Option Status)} {built bare : List Node}
    (h : Sorted w s above room directives checked built bare) {c : Node} (hc : c ∈ built) :
    c.label ∈ directives ∧ c.directive.source ≠ "" ∧ Judged w s above room c.directive none := by
  have hmem : c.label ∈ (checked.filter (·.2.isNone)).map (·.1) := h.planned ▸ mem_map_of_mem hc
  obtain ⟨z, hz, hlabel⟩ := mem_map.1 hmem
  obtain ⟨hz, hnone⟩ := mem_filter.1 hz
  have hsourced : c.label ∈ directives.filter fun x => !x.2.source.isEmpty := by
    rw [← h.labels, ← hlabel]
    exact mem_map_of_mem hz
  obtain ⟨hmem, hne⟩ := mem_filter.1 hsourced
  have hne : c.label.2.source ≠ "" := by simpa using hne
  have hjudged := h.judged z hz
  rw [Option.isNone_iff_eq_none.1 hnone, hlabel] at hjudged
  exact ⟨hmem, hne, hjudged⟩

theorem Sorted.source_ne {above : List String} {directives : List Placed} {checked : List (Placed × Option Status)}
    {built bare : List Node} (h : Sorted w s above room directives checked built bare) {z : Placed × Option Status}
    (hz : z ∈ checked) : z.1.2.source ≠ "" := by
  have hsourced : z.1 ∈ directives.filter fun x => !x.2.source.isEmpty := h.labels ▸ mem_map_of_mem hz
  simpa using (mem_filter.1 hsourced).2

/-! ## Crashes -/

inductive Found (w : World) (r : Registry) (root : Directive) (given : Option String) : Directive → Prop
  | here {content : String} {fragments : List Fragment} {refusals : List Refusal} {x : Placed} :
      Holds w r given root content fragments refusals → x ∈ directivesFrom 0 (modernizeAll r fragments).1 →
      Found w r root given x.2
  | further {d : Directive} {content : String} {fragments : List Fragment} {refusals : List Refusal} {x : Placed} :
      Found w r root given d → Holds w r none d content fragments refusals →
      x ∈ directivesFrom 0 (modernizeAll r fragments).1 → Found w r root given x.2

inductive Led (w : World) (r : Registry) (root : Directive) (given : Option String) : Directive → Option String → Prop
  | root : Led w r root given root given
  | found {d : Directive} : Found w r root given d → Led w r root given d none

theorem Led.found_of_mem {root d : Directive} {given given' : Option String} {content : String}
    {fragments : List Fragment} {refusals : List Refusal} {x : Placed} (h : Led w r root given d given')
    (hholds : Holds w r given' d content fragments refusals)
    (hx : x ∈ directivesFrom 0 (modernizeAll r fragments).1) : Found w r root given x.2 := by
  cases h with
  | root => exact .here hholds hx
  | found hfound => exact .further hfound hholds hx

inductive Stops (w : World) (r : Registry) (root : Directive) (given : Option String) (c : Crash) : Prop
  | source {d : Directive} : Found w r root given d → w.fails d.source c → Stops w r root given c
  | check {d : Directive} {place : Nat} : Found w r root given d → check r (place, d) = .error c →
      Stops w r root given c
  | bare {d : Directive} : Found w r root given d → d.source = "" → dataOf r w.folder d "" = .error c →
      Stops w r root given c
  | cut {d : Directive} {given' : Option String} {content : String} : Led w r root given d given' →
      Supplied w given' d.source content →
      Fragment.ofText w.folder (folderOf d.source) content.toList = .error c → Stops w r root given c
  | data {d : Directive} {given' : Option String} {content : String} : Led w r root given d given' →
      Supplied w given' d.source content → dataOf r w.folder d content = .error c → Stops w r root given c

/-! ## Planning -/

section

variable {w : World} {known : String → Prop} {A : Desk → Desk → Prop} {s : Setting} {r : Registry}
  {above : List String} {room : Nat} {x : Placed} {d root : Directive} {given given' : Option String}
  {content : String}

theorem map_eq_of_forall₂ {α β : Type} {f : β → α} {Q : β → Prop} {xs : List α} {ys : List β}
    (h : List.Forall₂ (fun x y => f y = x ∧ Q y) xs ys) : ys.map f = xs ∧ ∀ y ∈ ys, Q y := by
  induction h with
  | nil => simp
  | cons h _ ih =>
    rw [map_cons, h.1, ih.1]
    exact ⟨rfl, forall_mem_cons.2 ⟨h.2, ih.2⟩⟩

section

variable (h : Answers w known A)
include h

theorem even_sourceError? (hd : known d.source) :
    Even A (Judged w s above room d) (w.fails d.source) (sourceError? s above room d) := by
  refine even_bind_get fun desk desk' hdesk => ?_
  obtain ⟨hdir, hdir'⟩ := h.folder hdesk
  obtain ⟨hvalid, houtcome⟩ := h.validate hd hdesk
  refine ⟨by rw [hdir, hdir', hvalid], ?_⟩
  split_ifs with habove hroom
  · rw [hdir]
    exact even_pure (.circular (by simpa using habove))
  · exact even_pure (.deep (by simpa using habove) hroom)
  · refine even_bind (even_lift houtcome) fun errors herrors => even_pure ?_
    exact .checked (by simpa using habove) hroom herrors

theorem even_readData : Even A (fun found => dataOf r w.folder d content = .ok found)
    (fun c => dataOf r w.folder d content = .error c) (readData r d content) := by
  rw [readData, dataOf]
  split
  · exact even_pure rfl
  · refine even_bind_get fun desk desk' hdesk => ?_
    obtain ⟨hdir, hdir'⟩ := h.folder hdesk
    refine ⟨by rw [hdir, hdir'], ?_⟩
    rw [hdir]
    exact even_lift (outcome_self _)

theorem even_planSourceless (hx : x.2.source = "") :
    Even A (fun y => if (r.find? x.2.kind).isSome then ∃ n, y = some n ∧ n.label = x ∧ Bare w r n else y = none)
      (fun c => dataOf r w.folder x.2 "" = .error c) (planSourceless r x.1 x.2) := by
  rw [planSourceless]
  cases hp : r.find? x.2.kind with
  | none => exact even_pure rfl
  | some p =>
    refine even_bind_get fun desk desk' hdesk => ?_
    obtain ⟨hdir, hdir'⟩ := h.folder hdesk
    refine ⟨by rw [hdir, hdir'], ?_⟩
    have hdata : p.readSource w.folder x.2 "" = dataOf r w.folder x.2 "" := by rw [dataOf, hp]
    rw [hdir, hdata]
    refine even_bind_lift (fun found hfound => ?_) fun c hc => hc
    obtain ⟨data, errors⟩ := found
    cases errors with
    | nil => exact even_pure ⟨_, rfl, rfl, hx, rfl, rfl, data, hfound⟩
    | cons e errors => exact even_pure ⟨_, rfl, rfl, hx, rfl, rfl, data, hfound⟩

end

variable (h : Answers w known A)
  (hknown : ∀ d, Found w s.registry root given d → d.source ≠ "" → known d.source)
include h hknown

theorem even_planDocument {child : Placed → Work Node} {data : Option Data} (hx : Led w s.registry root given x.2 given')
    (hcont : Supplied w given' x.2.source content)
    (hdata : dataOf s.registry w.folder x.2 content = .ok (data, []))
    (hchild : room ≠ 0 → ∀ y : Placed, Found w s.registry root given y.2 → y.2.source ≠ "" →
      Even A (fun c => c.label = y ∧ Made w s (room - 1) (y.2.source :: above) none c) (Stops w s.registry root given) (child y)) :
    Even A (fun n => n.label = x ∧ Made w s room above given' n) (Stops w s.registry root given)
      (planDocument s above room child x.1 x.2 content data) := by
  simp only [planDocument, partition_eq_filter_filter]
  refine even_bind_get fun desk desk' hdesk => ?_
  obtain ⟨hdir, hdir'⟩ := h.folder hdesk
  refine ⟨by rw [hdir, hdir'], ?_⟩
  rw [hdir]
  refine even_bind_lift (fun found hfound => ?_) fun c hc => .cut hx hcont hc
  obtain ⟨fragments, refusals⟩ := found
  have hall : ∀ y ∈ directivesFrom 0 (modernizeAll s.registry fragments).1, Found w s.registry root given y.2 :=
    fun y hy => hx.found_of_mem ⟨hcont, ⟨data, hdata⟩, hfound⟩ hy
  refine even_bind_lift (fun problems _ => ?_) fun c hc => ?_
  swap
  · obtain ⟨y, hy, hcheck⟩ := exists_check_of_checkAll hc
    exact .check (hall y hy) hcheck
  refine even_bind (even_mapM (R := fun y z => z.1 = y ∧ Judged w s above room z.1.2 z.2 ∧
    Found w s.registry root given z.1.2 ∧ z.1.2.source ≠ "") fun y hy => ?_) fun checked hchk => ?_
  · obtain ⟨hy, hne⟩ := mem_filter.1 hy
    have hne : y.2.source ≠ "" := by simpa using hne
    refine even_bind ((even_sourceError? h (hknown _ (hall y hy) hne)).imp (fun _ h => h) fun c hc =>
      .source (hall y hy) hc) fun e he => even_pure ⟨rfl, he, hall y hy, hne⟩
  obtain ⟨hlabels, hchk⟩ := map_eq_of_forall₂ hchk
  refine even_bind (even_filterMapM (p := fun y => (s.registry.find? y.2.kind).isSome)
    (R := fun y n => n.label = y ∧ Bare w s.registry n) fun y hy => ?_) fun bare hbare => ?_
  · obtain ⟨hy, hempty⟩ := mem_filter.1 hy
    have hempty : y.2.source = "" := by simpa using hempty
    exact (even_planSourceless h hempty).imp (fun _ h => h) fun c hc => .bare (hall y hy) hempty hc
  obtain ⟨hbare, hsourceless⟩ := map_eq_of_forall₂ hbare
  refine even_bind (even_mapM (R := fun z c => c.label = z.1 ∧ Made w s (room - 1) (c.directive.source :: above) none c)
    fun z hz => ?_) fun built hbuilt => even_pure ⟨rfl, ?_⟩
  · obtain ⟨hz, hnone⟩ := mem_filter.1 hz
    obtain ⟨hjudged, hmem, hne⟩ := hchk z hz
    rw [Option.isNone_iff_eq_none.1 hnone] at hjudged
    refine (hchild hjudged.of_none.2.1 z.1 hmem hne).imp (fun c hc => ⟨hc.1, ?_⟩) fun _ h => h
    rw [show c.directive = z.1.2 from congrArg Prod.snd hc.1]
    exact hc.2
  obtain ⟨hbuilt, hmade⟩ := map_eq_of_forall₂ (forall₂_map_left_iff.2 hbuilt)
  refine .document ⟨⟨hcont, ⟨data, hdata⟩, hfound⟩, rfl, fun refusal hrefusal => ?_⟩
    ⟨hlabels, fun z hz => (hchk z hz).1, hbuilt, ?_, hsourceless⟩ rfl hmade
  · -- a refused block keeps the statuses from being empty
    have hmem : refusal.status ∈ refusals.map (·.status) ++ (modernizeAll s.registry fragments).2 ++ problems := by
      simp only [mem_append]
      exact .inl (.inl (mem_map_of_mem hrefusal))
    rw [if_neg (by simpa using ne_nil_of_mem hmem)]
    exact hmem
  · simpa using hbare

theorem even_planLoaded_of_child (hx : Led w s.registry root given x.2 given') (hcont : Supplied w given' x.2.source content)
    (hchild : room ≠ 0 → ∀ y : Placed, Found w s.registry root given y.2 → y.2.source ≠ "" →
      Even A (fun c => c.label = y ∧ Made w s (room - 1) (y.2.source :: above) none c) (Stops w s.registry root given)
        (planChild s above room y)) :
    Even A (fun n => n.label = x ∧ Made w s room above given' n) (Stops w s.registry root given)
      (planLoaded s room above x content) := by
  rw [planLoaded_eq]
  refine even_bind ((even_readData h).imp (fun _ h => h) fun c hc => .data hx hcont hc) fun found hfound => ?_
  obtain ⟨data, errors⟩ := found
  cases errors with
  | nil => exact even_planDocument h hknown hx hcont hfound hchild
  | cons e errors => exact even_pure ⟨rfl, .unread hcont hfound⟩

theorem even_planChild (hroom : room ≠ 0) (hx : Found w s.registry root given x.2) (hsrc : x.2.source ≠ "") :
    Even A (fun n => n.label = x ∧ Made w s (room - 1) (x.2.source :: above) none n) (Stops w s.registry root given)
      (planChild s above room x) := by
  induction room generalizing above x with
  | zero => exact absurd rfl hroom
  | succ room ih =>
    refine even_bind ((h.readFile (hknown _ hx hsrc)).imp (fun _ h => h) fun c hc => .source hx hc)
      fun found hfound => ?_
    split
    · exact even_planLoaded_of_child h hknown (.found hx) hfound fun hroom y hy hne => ih hroom hy hne
    · rename_i hnone
      exact even_pure ⟨rfl, .refused hfound hnone⟩

theorem even_planLoaded (hx : Led w s.registry root given x.2 given') (hcont : Supplied w given' x.2.source content) :
    Even A (fun n => n.label = x ∧ Made w s room above given' n) (Stops w s.registry root given)
      (planLoaded s room above x content) :=
  even_planLoaded_of_child h hknown hx hcont fun hroom _ hy hne => even_planChild h hknown hroom hy hne

end

/-! ## Roots -/

inductive Subject where
  | file (path : String)
  | text (content : String)

namespace Subject

def source (cwd : Path) : Subject → String
  | .file path => (resolve cwd (.ofText path)).text
  | .text _ => (cwd.join { root := "", parts := ["<stdin>"] }).text

def directive (config : Config) (cwd : Path) (subject : Subject) : Directive :=
  { kind := config.rootKind, source := subject.source cwd, options := [], baseDir := "" }

def plan (config : Config) (r : Registry) : Subject → Work Node
  | .file path => planFile config r path
  | .text content => planText config r content

def given : Subject → Option String
  | .file _ => none
  | .text content => some content

def above (cwd : Path) : Subject → List String
  | .file path => [source cwd (.file path)]
  | .text _ => []

end Subject

structure Rooted (w : World) (config : Config) (r : Registry) (subject : Subject) (root : Node) : Prop where
  label : root.label = (0, subject.directive config w.folder)
  named : ∀ path, subject = .file path → hasNull path = false
  made : Made w (settingOf config r) config.maxRecursion.value.toNat (subject.above w.folder) subject.given root

section

variable {w : World} {known : String → Prop} {A : Desk → Desk → Prop} {config : Config} {r : Registry}
  {subject : Subject}

theorem Rooted.directive_eq (h : Rooted w config r subject root) : root.directive = subject.directive config w.folder :=
  congrArg Prod.snd h.label

theorem Rooted.follow_eq {path : String} (h : Rooted w config r (.file path) root) :
    follow w.folder path = .ok (resolve w.folder (.ofText path)) := by
  rw [follow, if_neg (by simp [h.named path rfl])]

theorem even_plan (config : Config) (r : Registry) (subject : Subject) (h : Answers w known A)
    (hroot : ∀ path, subject = .file path → known (subject.source w.folder))
    (hknown : ∀ d, Found w r (subject.directive config w.folder) subject.given d → d.source ≠ "" → known d.source) :
    Even A (Rooted w config r subject) (fun c => (∃ path, subject = .file path ∧
          (c = .nullInPath ∧ hasNull path = true ∨ w.fails (subject.source w.folder) c)) ∨
        Stops w r (subject.directive config w.folder) subject.given c) (subject.plan config r) := by
  cases subject with
  | text content =>
    refine even_bind_get fun desk desk' hdesk => ?_
    obtain ⟨hdir, hdir'⟩ := h.folder hdesk
    refine ⟨by rw [hdir, hdir'], ?_⟩
    rw [hdir]
    refine (even_planLoaded (s := settingOf config r) (x := (0, Subject.directive config w.folder (.text content)))
      h hknown .root rfl).imp (fun n hn => ⟨hn.1, (fun _ h => by cases h), hn.2⟩) fun c hc => .inr hc
  | file path =>
    refine even_bind_get fun desk desk' hdesk => ?_
    obtain ⟨hdir, hdir'⟩ := h.folder hdesk
    refine ⟨by rw [hdir, hdir'], ?_⟩
    rw [hdir]
    refine even_bind_lift (fun p hp => ?_) fun c hc => ?_
    swap
    · rw [follow] at hc
      split_ifs at hc with hnull
      cases hc
      exact .inl ⟨path, rfl, .inl ⟨rfl, hnull⟩⟩
    rw [follow] at hp
    split_ifs at hp with hnull
    cases hp
    have hnamed : ∀ path', Subject.file path = .file path' → hasNull path' = false := by
      simpa using hnull
    refine even_bind ((h.readFile (hroot path rfl)).imp (fun _ h => h) fun c hc => .inl ⟨path, rfl, .inr hc⟩)
      fun found hfound => ?_
    split
    · refine (even_planLoaded (s := settingOf config r) (x := (0, Subject.directive config w.folder (.file path)))
        h hknown .root hfound).imp (fun n hn => ⟨hn.1, hnamed, hn.2⟩) fun c hc => .inr hc
    · rename_i hnone
      exact even_pure ⟨rfl, hnamed, .refused hfound hnone⟩

end

/-! ### Desks of any kind -/

def World.any (folder : Path) : World := ⟨folder, fun _ _ => True, fun _ _ => True, fun _ _ => True⟩

theorem answers_any {P : Desk → Prop} {folder : Path} (hfolder : ∀ d, P d → d.disk.folder = folder)
    (hread : ∀ path d, P d → P ((readFile path).run d).2) : Answers (.any folder) (fun _ => True) (Alone P) where
  folder := by
    rintro d _ ⟨rfl, hd⟩
    exact ⟨hfolder _ hd, hfolder _ hd⟩
  validate := by
    rintro path d _ - ⟨rfl, -⟩
    exact ⟨rfl, (outcome_self _).imp (fun _ _ => trivial) fun _ _ => trivial⟩
  readFile := by
    intro path _
    exact even_alone fun d hd => ⟨hread path d hd, (outcome_self _).imp (fun _ _ => trivial) fun _ _ => trivial⟩

theorem rooted_of_plan_ok {config : Config} (subject : Subject) {desk desk' : Desk}
    (h : (subject.plan config r).run desk = (.ok root, desk')) :
    Rooted (.any desk.disk.folder) config r subject root := by
  have hread (path : String) (d : Desk) (hd : d.disk.folder = desk.disk.folder) :
      ((readFile path).run d).2.disk.folder = desk.disk.folder := by
    rw [run_readFile]
    cases d.cache.get d.disk path <;> exact hd
  have hplan := (even_plan config r subject (answers_any (fun _ hd => hd) hread)
    (fun _ _ => trivial) (fun _ _ _ => trivial) desk desk ⟨rfl, rfl⟩).outcome
  rwa [h] at hplan

end Plan

end Transclude
