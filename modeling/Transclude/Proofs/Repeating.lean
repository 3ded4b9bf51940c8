import Transclude.Proofs.Comparing

/-!
# Repeating a session

What a session does with its input, one file, a text or all files of a folder, is repeated on the disk that it
left. If the files that it wrote are none of those that it read, all of them are found up to date.
-/

namespace Transclude

open List Desk Disk Path

namespace Session

open Work Plan

variable {x x' y z : Desk} {config : Config} {r : Registry} {s s' : Summary} {root : Node} {cwd : Path}
  {folder : String} {plans chosen : List (String × Node)}
variable {files : List String}


/-! ## Written paths -/

def resolved (cwd : Path) (outputs : List String) : List String :=
  outputs.map fun output => (resolve cwd (.ofText output)).text

def places (cwd : Path) (outputs : List String) : List (List String) :=
  outputs.map fun output => (resolve cwd (.ofText output)).parts

theorem unwritten_of_ne {outputs : List String} {path : String}
    (h : (resolve cwd (.ofText path)).text ∉ resolved cwd outputs) : Unwritten cwd (places cwd outputs) path := by
  intro hmem
  obtain ⟨output, houtput, hparts⟩ := mem_map.1 hmem
  refine h (mem_map.2 ⟨output, houtput, ?_⟩)
  have hres : resolve cwd (.ofText output) = resolve cwd (.ofText path) := by
    rw [Path.mk.injEq]
    exact ⟨rfl, hparts⟩
  rw [hres]

theorem resolved_text {outs : List Path} (houts : ∀ out ∈ outs, out.Canonical) (cwd : Path) :
    resolved cwd (outs.map Path.text) = outs.map Path.text ∧ places cwd (outs.map Path.text) = outs.map Path.parts := by
  rw [resolved, places, map_map, map_map]
  refine ⟨map_congr_left fun out hout => (houts out hout).text_resolve cwd, map_congr_left fun out hout => ?_⟩
  rw [Function.comp_apply, Path.ofText_text (houts out hout).clean, (houts out hout).resolve_eq]

def Apart (cwd : Path) (outputs : List String) (root : Node) : Prop :=
  root.failures = [] ∧ ∀ m ∈ root.walk, (resolve cwd (.ofText m.directive.source)).text ∉ resolved cwd outputs

theorem Apart.sound {outputs : List String} (h : Apart cwd outputs root) :
    root.Sound (Unwritten cwd (places cwd outputs)) :=
  ⟨h.1, fun m hm => unwritten_of_ne (h.2 m hm)⟩

theorem Apart.succeeds {outputs : List String} (h : Apart cwd outputs root) : root.hasFailure = false := by
  rw [Node.hasFailure, h.1]
  rfl

theorem alike_start {written : List (List String)} {disk : Disk} (hcache : x.cache.entries = [])
    (h : Disk.Extends written x.disk disk) :
    Plan.Alike x (Trusted x written) False x { x with disk := disk } := by
  have hnone (e : String × Option String) (he : e ∈ x.cache.entries) : Trusted x written e.1 := by
    rw [hcache] at he
    cases he
  have hsteady : Steady x written { x with disk := disk } :=
    ⟨h, ⟨rfl, rfl⟩, Cache.faithful_of_entries_eq_nil hcache, hnone⟩
  exact {
    left := serves_of_disk_eq rfl ⟨rfl, rfl⟩ (Cache.faithful_of_entries_eq_nil hcache)
    right := hsteady.serves
    kept := hnone
    kept' := hnone
    answers := rfl
    terminal := rfl
    acceptAll := rfl
    compiled := fun h => h.elim
    heard := fun h => h.elim }

/-! ## All files of a folder -/

theorem separate_of_listed {base : Desk} {written : List (List String)} {input : String}
    (hd : base.disk.Tidy) (hfiles : base.disk.expand input documentPattern = .ok files)
    (htrusts : ∀ plan ∈ plans, plan.2.Trusts (Trusted base written))
    (hclear : ∀ plan ∈ plans, plan.2.hasFailure = false) (hpaths : (plans.map (·.1)).Sublist files)
    (hchosen : chosen.Sublist plans) (folder : String) :
    Separate base written (base.disk.baseFolder input) folder chosen := by
  have hbelow : ∀ place, base.disk.locate (searched input).text = .ok place → base.disk.TidyBelow place :=
    fun place _ => hd.below place
  obtain ⟨listed, hexpand, hsorted, hmem⟩ := expand_listed hbelow hd.nodup
  rw [Except.ok.inj (hexpand.symm.trans hfiles)] at hsorted hmem
  have hsublist := (hchosen.map (·.1)).trans hpaths
  have hplace : ∀ file ∈ files, ∃ names,
      file = ({ searched input with parts := (searched input).parts ++ names } : Path).text ∧
      (∃ p, outputPath base.disk.folder (base.disk.baseFolder input) folder file = .ok p) ∧
      outputPlace base.disk.folder (base.disk.baseFolder input) folder file =
        (resolve base.disk.folder (.ofText folder)).parts ++ names := by
    intro file hfile
    obtain ⟨names, name, rfl, hdoc, -⟩ := (hmem file).1 hfile
    exact ⟨names ++ [name], rfl, outputPath_below folder (clean_searched input) (hdoc.proper hbelow)⟩
  refine ⟨fun plan hplan => htrusts plan (hchosen.subset hplan), fun plan hplan => hclear plan (hchosen.subset hplan),
    fun plan hplan => ?_, ?_⟩
  · obtain ⟨_, -, hpath, -⟩ := hplace plan.1 (hsublist.subset (mem_map_of_mem hplan))
    exact hpath
  · have hmap : (chosen.map fun plan => outputPlace base.disk.folder (base.disk.baseFolder input) folder plan.1) =
        (chosen.map (·.1)).map (outputPlace base.disk.folder (base.disk.baseFolder input) folder) := by
      rw [map_map]
      rfl
    rw [hmap]
    refine (hsorted.nodup.sublist hsublist).map_on fun file hfile file' hfile' heq => ?_
    obtain ⟨names, hnames, -, hout⟩ := hplace file (hsublist.subset hfile)
    obtain ⟨names', hnames', -, hout'⟩ := hplace file' (hsublist.subset hfile')
    rw [hout, hout', append_cancel_left_eq] at heq
    rw [hnames, hnames', heq]

def emptyLine (config : Config) : String := s!"error: no .md files found in '{config.input}'" ++ "\n"

theorem verdict?_emptyLine (config : Config) : (Output.err (emptyLine config)).verdict? = none := by
  have hlist : (emptyLine config).toList = 'e' :: _ :=
    Compile.toList_append_cons (Compile.toList_append_cons (Compile.toList_append_cons rfl))
  rw [Output.verdict?, hlist]
  rfl

theorem processFolder_of_empty (config : Config) (h : x.disk.expand config.input documentPattern = .ok [])
    (s : Summary) :
    (processFolder config r s).run x = (.ok s, { x with past := .err (emptyLine config) :: x.past }) := by
  rw [documentPattern] at h
  rw [processFolder, run_bind_of_ok (run_get x)]
  dsimp only
  rw [h]
  rfl

theorem processFolder_of_files (config : Config) (hne : files ≠ [])
    (h : x.disk.expand config.input documentPattern = .ok files) (s : Summary) :
    (processFolder config r s).run x = (do
      let plans ← planAll config r files
      let chosen ← lift (targets x.disk.folder config plans)
      emit (.compilationStarted chosen.length)
      let s ← compileFiles config r (x.disk.baseFolder config.input) chosen.length 0 s chosen
      emit (.compilationComplete s.ok s.errors)
      return s : Work Summary).run x := by
  rw [documentPattern] at h
  rw [processFolder, run_bind_of_ok (run_get x)]
  have hempty : files.isEmpty = false := isEmpty_eq_false_iff.2 hne
  dsimp only
  rw [h, Except.mapError, run_bind_of_ok (run_lift_ok files x), hempty, if_neg Bool.false_ne_true]

variable (hd : x.disk.Tidy) (hcache : x.cache.entries = []) (hdone : x.completed = [])
  (hver : config.verify = false) (hdry : config.dryRun = false)

include hd hcache hdone in
theorem files_compare (hto : WritesTo config config.outputFolder folder)
    (hfiles : x.disk.expand config.input documentPattern = .ok files)
    (hplan : (planAll config r files).run x = (.ok plans, z))
    (hchosen : targets x.disk.folder config plans = .ok chosen)
    (hcomp : (compileFiles config r (x.disk.baseFolder config.input) chosen.length 0 s chosen).run
      (z.after (.compilationStarted chosen.length)) = (.ok s', y))
    (hplans : ∀ plan ∈ plans, Apart x.disk.folder y.completed plan.2)
    (hsize : ∀ path ∈ resolved x.disk.folder y.completed, path.utf8ByteSize ≤ maxPath) :
    Disk.Extends (places x.disk.folder y.completed) x.disk y.disk ∧
      ∃ z' s₂ y', (planAll { config with verify := true } r files).run { x with disk := y.disk } = (.ok plans, z') ∧
        (compileFiles { config with verify := true } r (x.disk.baseFolder config.input) chosen.length 0 s chosen).run
          (z'.after (.compilationStarted chosen.length)) = (.ok s₂, y') ∧
        Passes s { x with disk := y.disk } ((resolved x.disk.folder y.completed).map freshLine) s₂ y' := by
  have hstand := (leaves_planAll files).view_eq hplan
  have hzdisk : z.disk = x.disk := congrArg Prod.fst hstand
  have hzdone : (z.after (.compilationStarted chosen.length)).completed = [] :=
    (completed_after_of_none rfl z).trans ((completed_congr (congrArg Prod.snd hstand)).trans hdone)
  obtain ⟨outs, houts, hext, hcanon⟩ := compileFiles_write hto (hzdisk ▸ hd.firm) hcomp
  rw [hzdone, nil_append] at houts
  have hext : Disk.Extends (outs.map parts) x.disk y.disk := hzdisk ▸ hext
  obtain ⟨hresolved, hplaces⟩ := resolved_text (fun out hout => (hcanon out hout).1) x.disk.folder
  rw [houts] at hplans
  rw [houts, hresolved] at hsize ⊢
  rw [hplaces]
  obtain ⟨z', hplan', habreast, htrusts, hpaths⟩ := planAll_again hd.toGrounded (alike_start hcache hext) hplan
    fun plan hplan => hplaces ▸ (hplans plan hplan).sound
  have hlevel := level_of_alike habreast.alike (habreast.disk ▸ extends_refl _ _) (habreast.disk' ▸ hext)
  have hsep := separate_of_listed hd hfiles htrusts (fun plan hplan => (hplans plan hplan).succeeds) hpaths
    (targets_sublist hchosen) folder
  have hwritten : ∀ path ∈ y.completed,
      (ofText path).parts ∈ outs.map parts ∧ path.utf8ByteSize ≤ maxPath := by
    rw [houts]
    intro path hpath
    obtain ⟨out, hout, rfl⟩ := mem_map.1 hpath
    rw [ofText_text (hcanon out hout).1.clean]
    exact ⟨mem_map_of_mem hout, hsize _ hpath⟩
  obtain ⟨s₂, y', outs', hcomp', hnew, hpass⟩ := compileFiles_compare hto hd.firm
    (hlevel.begin (.compilationStarted chosen.length)) hsep hcomp habreast.disk' hwritten s
  rw [hzdone, nil_append, houts] at hnew
  have hbegun : Passes s { x with disk := y.disk } [] s (z'.after (.compilationStarted chosen.length)) :=
    passes_of_verdicts habreast.disk' ((verdicts_after ..).trans (verdicts_congr habreast.deliveries'))
  exact ⟨hext, z', s₂, y', hplan', hcomp', hnew ▸ hbegun.append hpass⟩

include hd hcache hdone in
theorem processFolder_compare (hto : WritesTo config config.outputFolder folder)
    (h : (processFolder config r s).run x = (.ok s', y))
    (hfiles : x.disk.expand config.input documentPattern = .ok files)
    (hplan : (planAll config r files).run x = (.ok plans, z))
    (hplans : ∀ plan ∈ plans, Apart x.disk.folder y.completed plan.2)
    (hbase : ∀ e ∈ y.disk.entries, (x.disk.baseFolder config.input).parts <+: e.1 → e ∈ x.disk.entries)
    (hsize : ∀ path ∈ resolved x.disk.folder y.completed, path.utf8ByteSize ≤ maxPath) :
    Disk.Extends (places x.disk.folder y.completed) x.disk y.disk ∧
      (y.disk = x.disk ∨ x.disk.isFolder (searched config.input).text = true) ∧
      ∃ s₂ y', (processFolder { config with verify := true } r s).run { x with disk := y.disk } = (.ok s₂, y') ∧
        Passes s { x with disk := y.disk } ((resolved x.disk.folder y.completed).map freshLine) s₂ y' := by
  by_cases hne : files = []
  · subst hne
    rw [processFolder_of_empty config hfiles] at h
    cases h
    have hnone : completed { x with past := .err (emptyLine config) :: x.past } = [] :=
      (filterMap_log_cons Output.completed? x _).trans (by rw [← completed, hdone]; rfl)
    have hverd : verdicts { x with past := .err (emptyLine config) :: x.past } = x.verdicts :=
      (filterMap_log_cons Output.verdict? x _).trans (by
        rw [verdict?_emptyLine, ← verdicts]
        exact append_nil _)
    refine ⟨extends_refl _ _, .inl rfl, s, _, processFolder_of_empty { config with verify := true } hfiles s, ?_⟩
    rw [hnone]
    exact passes_of_verdicts rfl hverd
  · rw [processFolder_of_files config hne hfiles, run_bind_of_ok hplan] at h
    obtain ⟨chosen, hchosen, h⟩ := bind_lift_ok h
    rw [run_bind_of_ok (run_emit ..)] at h
    obtain ⟨s₁, y₁, hcomp, h⟩ := bind_ok h
    rw [run_bind_of_ok (run_emit ..)] at h
    cases h
    have hycompleted : (y₁.after (.compilationComplete s'.ok s'.errors)).completed = y₁.completed :=
      completed_after_of_none rfl y₁
    rw [hycompleted] at hplans hsize ⊢
    obtain ⟨hext, z', s₂, y', hplan', hcomp', hpass⟩ :=
      files_compare hd hcache hdone hto hfiles hplan hchosen hcomp hplans hsize
    have hisFolder := isFolder_of_expand hfiles hne
    have hfiles' : y₁.disk.expand config.input documentPattern = .ok files :=
      (expand_unchanged hext hd hisFolder hbase).trans hfiles
    have hrun : (processFolder { config with verify := true } r s).run { x with disk := y₁.disk } =
        (.ok s₂, y'.after (.compilationComplete s₂.ok s₂.errors)) := by
      have hchosen' : targets y₁.disk.folder { config with verify := true } plans = .ok chosen :=
        hext.folder ▸ hchosen
      have htop : y₁.disk.baseFolder config.input = x.disk.baseFolder config.input := by
        rw [baseFolder, baseFolder, hext.folder]
      have hfound : expand (disk { x with disk := y₁.disk }) (Config.input { config with verify := true })
          documentPattern = .ok files := hfiles'
      rw [processFolder_of_files { config with verify := true } hne hfound, run_bind_of_ok hplan', hchosen',
        run_bind_of_ok (run_lift_ok _ _), run_bind_of_ok (run_emit ..), htop, run_bind_of_ok hcomp',
        run_bind_of_ok (run_emit ..)]
      rfl
    refine ⟨hext, .inr hisFolder, s₂, _, hrun, hpass.disk, ?_, hpass.errors, hpass.stale⟩
    exact (verdicts_after ..).trans hpass.verdicts

/-! ## Single inputs -/

variable {base : Desk} {written : List (List String)} {output : String}

theorem processSingle_steps (h : (processSingle config r root s).run x = (.ok s', y)) :
    ∃ result x₁, (compileSafely config r (Target.folderOfFile x.disk.folder config.outputFile) root).run
        (x.after (.fileStarted root.directive.source root.count 0 1)) = (.ok result, x₁) ∧
      (handSingle config x.disk.folder root s result).run x₁ = (.ok s', y) ∧
      x₁.disk = x.disk ∧ x₁.completed = x.completed := by
  rw [processSingle_eq, run_bind_of_ok (run_get x), run_bind_of_ok (run_emit ..)] at h
  obtain ⟨result, x₁, hcomp, h⟩ := bind_ok h
  exact ⟨result, x₁, hcomp, h, compileSafely_frame rfl hcomp⟩

theorem processSingle_write (hd : x.disk.Firm) (hto : WritesTo config config.outputFile output)
    (h : (processSingle config r root s).run x = (.ok s', y)) :
    ∃ outs, y.completed = x.completed ++ outs ∧ Disk.Extends (places x.disk.folder outs) x.disk y.disk ∧
      ∀ q, y.disk.isFolderAt q = x.disk.isFolderAt q := by
  obtain ⟨result, x₁, -, hhand, hdisk, hdone⟩ := processSingle_steps h
  rw [← hdisk] at hd hhand ⊢
  rcases handSingle_write hd hto hhand with
    ⟨-, hframe, hsame⟩ | ⟨text, -, -, hwrote, hmore, hdirs⟩
  · refine ⟨[], by rw [hsame, hdone, append_nil], ?_, fun q => ?_⟩ <;> rw [hframe]
    exact extends_refl _ _
  · exact ⟨[output], by rw [hmore, hdone], hwrote.extended, hdirs⟩

theorem Level.processSingle (hlevel : Level base written x x') (htrusts : root.Trusts (Trusted base written))
    (h : (processSingle config r root s).run x = (.ok s', y)) :
    ∃ result x₁ x₁', (handSingle config x.disk.folder root s result).run x₁ = (.ok s', y) ∧
      (x₁.disk = x.disk ∧ x₁.completed = x.completed) ∧ Passes s x' [] s x₁' ∧
      (Session.processSingle { config with verify := true } r root s).run x' =
        (handSingle { config with verify := true } x.disk.folder root s result).run x₁' := by
  obtain ⟨result, x₁, hcomp, hhand, hsame⟩ := processSingle_steps h
  obtain ⟨x₁', hcomp', -, -, hdisk', hdel'⟩ := (hlevel.begin _).compileSafely htrusts hcomp
  have hpass : Passes s x' [] s x₁' :=
    passes_of_verdicts hdisk' ((verdicts_congr hdel').trans (verdicts_after ..))
  refine ⟨result, x₁, x₁', hhand, hsame, hpass, ?_⟩
  have hcwd : x'.disk.folder = x.disk.folder := hlevel.alike.folder
  have hcomp₂ : (Session.compileSafely { config with verify := true } r
      (Target.folderOfFile x.disk.folder config.outputFile) root).run
        (x'.after (.fileStarted root.directive.source root.count 0 1)) = (.ok result, x₁') := hcomp'
  rw [processSingle_eq, run_bind_of_ok (run_get x'), run_bind_of_ok (run_emit ..), hcwd, run_bind_of_ok hcomp₂]

theorem processSingle_compare (hd : base.disk.Firm) (hto : WritesTo config config.outputFile output)
    (hlevel : Level base written x x') (htrusts : root.Trusts (Trusted base written)) (hroot : root.hasFailure = false)
    (h : (processSingle config r root s).run x = (.ok s', y)) (hdisk : x'.disk = y.disk)
    (hsize : ∀ path ∈ resolved base.disk.folder y.completed, path.utf8ByteSize ≤ maxPath) :
    ∃ s₂ y' outs, (processSingle { config with verify := true } r root s).run x' = (.ok s₂, y') ∧
      y.completed = x.completed ++ outs ∧ Passes s x' ((resolved base.disk.folder outs).map freshLine) s₂ y' := by
  obtain ⟨result, x₁, x₁', hhand, ⟨hdisk₁, hdone⟩, hbegun, hrun⟩ := hlevel.processSingle htrusts h
  have hcwd : x.disk.folder = base.disk.folder := hlevel.left.extended.folder
  have hfirm := hlevel.left.extended.firm hd
  rw [← hdisk₁] at hhand hcwd hfirm
  rw [hrun, ← hdisk₁, hcwd]
  rcases handSingle_write hfirm hto hhand with
    ⟨hempty, -, hsame⟩ | ⟨text, rfl, hne, hwrote, hmore, -⟩
  · obtain ⟨s₂, y', hrun', hpass⟩ := handSingle_skip config x₁' hroot hempty s
    exact ⟨s₂, y', [], hrun', by rw [hsame, hdone, append_nil], hbegun.append hpass⟩
  · rw [hcwd] at hwrote
    have hfresh : Freshness.check x₁'.disk config.lineEndings text
        (resolve base.disk.folder (.ofText output)).text = .ok .upToDate := by
      rw [hbegun.disk]
      refine Freshness.check_of_holds (hlevel.right.extended.grounded hd.toGrounded)
        (hd.canonical.resolve (clean_ofText output)) (hsize _ ?_) (hdisk ▸ hwrote.holds)
      rw [hmore, resolved, map_append]
      exact mem_append_right _ mem_cons_self
    obtain ⟨s₂, y', hrun', hpass⟩ := handSingle_compare config x₁' hto.path hroot hne hfresh s
    exact ⟨s₂, y', [output], hrun', by rw [hmore, hdone], hbegun.append hpass⟩

theorem processSingle_show (houtput : config.outputFile.filter (· != "") = none) (hlevel : Level base written x x')
    (htrusts : root.Trusts (Trusted base written)) (hroot : root.hasFailure = false)
    (h : (processSingle config r root s).run x = (.ok s', y)) :
    ∃ s₂ y', (processSingle { config with verify := true } r root s).run x' = (.ok s₂, y') ∧ Passes s x' [] s₂ y' := by
  obtain ⟨result, _, x₁', -, -, hbegun, hrun⟩ := hlevel.processSingle htrusts h
  rw [hrun]
  obtain ⟨s₂, y', hrun', hpass⟩ := handSingle_show { config with verify := true } x₁' houtput hroot result s
  exact ⟨s₂, y', hrun', hbegun.append hpass⟩

/-! ## Inputs -/

def writes (config : Config) : Bool := decide (config.mode = .directory) || (config.outputFile.filter (· != "")).isSome

def outputs (config : Config) (y : Desk) : List String := if writes config then y.completed else []

/-- How a session went that was repeated to compare: nothing was written but its outputs, and each was found up to
date. -/
structure Repeats (config : Config) (s : Summary) (x y : Desk) (again : Work Summary) : Prop where
  extended : Disk.Extends (places x.disk.folder (outputs config y)) x.disk y.disk
  passes : ∃ s₂ y', again.run { x with disk := y.disk } = (.ok s₂, y') ∧
    Passes s { x with disk := y.disk } ((resolved x.disk.folder (outputs config y)).map freshLine) s₂ y'

theorem Repeats.unchanged {again : Work Summary} {place : List String} {bytes : ByteArray}
    (h : Repeats config s x y again) (hfile : y.disk.entry? place = some (.file bytes)) :
    x.disk.entry? place = some (.file bytes) ∨
      (Path.mk "/" place).text ∈ resolved x.disk.folder (outputs config y) := by
  by_cases hplace : place ∈ places x.disk.folder (outputs config y)
  · obtain ⟨output, houtput, rfl⟩ := mem_map.1 hplace
    exact .inr (mem_map.2 ⟨output, houtput, rfl⟩)
  · exact .inl ((h.extended.files place hplace bytes).2 hfile)

include hd hcache hdone hver hdry in
theorem single_repeats (subject : Subject) (hmode : config.mode ≠ .directory)
    (hplan : (subject.plan config r).run x = (.ok root, z)) (h : (processSingle config r root s).run z = (.ok s', y))
    (hroot : Apart x.disk.folder (outputs config y) root)
    (hsize : ∀ path ∈ resolved x.disk.folder (outputs config y), path.utf8ByteSize ≤ maxPath) :
    (∀ q, y.disk.isFolderAt q = x.disk.isFolderAt q) ∧ Repeats config s x y
        (subject.plan config r >>= fun root => processSingle { config with verify := true } r root s) := by
  -- the same plan is made again, so the two ways to hand over a result are left to compare
  have hrep (hext : Disk.Extends (places x.disk.folder (outputs config y)) x.disk y.disk)
      (hsingle : ∀ z', Level x (places x.disk.folder (outputs config y)) z z' → z'.disk = y.disk →
        root.Trusts (Trusted x (places x.disk.folder (outputs config y))) →
        ∃ s₂ y', (processSingle { config with verify := true } r root s).run z' = (.ok s₂, y') ∧
          Passes s z' ((resolved x.disk.folder (outputs config y)).map freshLine) s₂ y') :
      Repeats config s x y
        (subject.plan config r >>= fun root => processSingle { config with verify := true } r root s) := by
    obtain ⟨z', hplan', habreast, htrusts⟩ :=
      plan_again subject hd.toGrounded (fun _ _ => hd) (alike_start hcache hext) hplan hroot.sound
    have hlevel := level_of_alike habreast.alike (habreast.disk ▸ extends_refl _ _) (habreast.disk' ▸ hext)
    obtain ⟨s₂, y', hrun, hpass⟩ := hsingle z' hlevel habreast.disk' htrusts
    have hplanned : Passes s { x with disk := y.disk } [] s z' :=
      passes_of_verdicts habreast.disk' (verdicts_congr habreast.deliveries')
    refine ⟨hext, s₂, y', ?_, hplanned.append hpass⟩
    rw [run_bind_of_ok hplan']
    exact hrun
  have hstand := (quiet_plan subject).leaves.view_eq hplan
  have hzdisk : z.disk = x.disk := congrArg Prod.fst hstand
  have hzdone : z.completed = [] := (completed_congr (congrArg Prod.snd hstand)).trans hdone
  cases houtput : config.outputFile.filter (· != "") with
  | some output =>
    have houtputs : outputs config y = y.completed := if_pos (by simp [writes, houtput])
    have hto : WritesTo config config.outputFile output := ⟨hver, hdry, houtput⟩
    obtain ⟨outs, hnew, hext, hdirs⟩ := processSingle_write (hzdisk ▸ hd.firm) hto h
    rw [hzdone, nil_append] at hnew
    rw [hzdisk, ← hnew, ← houtputs] at hext
    refine ⟨fun q => hzdisk ▸ hdirs q, hrep hext fun z' hlevel hdisk htrusts => ?_⟩
    obtain ⟨s₂, y', outs', hrun, hnew', hpass⟩ :=
      processSingle_compare hd.firm hto hlevel htrusts hroot.succeeds h hdisk (houtputs ▸ hsize)
    rw [hzdone, nil_append] at hnew'
    rw [houtputs, hnew']
    exact ⟨s₂, y', hrun, hpass⟩
  | none =>
    have houtputs : outputs config y = [] := if_neg (by simp [writes, houtput, hmode])
    have hdisk : y.disk = x.disk := by
      obtain ⟨result, x₁, -, hhand, hdisk₁, -⟩ := processSingle_steps h
      obtain ⟨s₁, y₁, hshown, hpass⟩ := handSingle_show config x₁ houtput hroot.succeeds result s
      obtain rfl : y₁ = y := congrArg Prod.snd (hshown.symm.trans hhand)
      rw [hpass.disk, hdisk₁, hzdisk]
    refine ⟨fun q => by rw [hdisk], hrep (hdisk.symm ▸ extends_refl _ _) fun z' hlevel _ htrusts => ?_⟩
    rw [houtputs]
    exact processSingle_show houtput hlevel htrusts hroot.succeeds h

def plansOf (config : Config) (r : Registry) : Work (List Node) :=
  match config.mode with
  | .file => return [← planFile config r config.input]
  | .stdin => return [← planText config r config.input]
  | .directory => do
    let files ← Work.lift (((← get).disk.expand config.input documentPattern).mapError .pattern)
    return (← planAll config r files).map (·.2)

theorem processInput_of_file (config : Config) (hmode : config.mode = .file) (r : Registry) (s : Summary) :
    processInput config r s = (planFile config r config.input >>= fun root => processSingle config r root s) := by
  rw [processInput, hmode]

theorem processInput_of_text (config : Config) (hmode : config.mode = .stdin) (r : Registry) (s : Summary) :
    processInput config r s = (planText config r config.input >>= fun root => processSingle config r root s) := by
  rw [processInput, hmode]

theorem processInput_of_folder (config : Config) (hmode : config.mode = .directory) (r : Registry) (s : Summary) :
    processInput config r s = processFolder config r s := by
  rw [processInput, hmode]

theorem exists_subject (config : Config) (hmode : config.mode ≠ .directory) (r : Registry) (s : Summary) :
    ∃ subject : Subject, plansOf config r = (do return [← subject.plan config r]) ∧
      ∀ verify, processInput { config with verify } r s =
        (subject.plan config r >>= fun root => processSingle { config with verify } r root s) := by
  have hmodes : config.mode = .file ∨ config.mode = .stdin := by
    revert hmode
    cases config.mode <;> simp
  rcases hmodes with h | h
  · exact ⟨.file config.input, by rw [plansOf, h]; rfl, fun verify => processInput_of_file { config with verify } h ..⟩
  · exact ⟨.text config.input, by rw [plansOf, h]; rfl, fun verify => processInput_of_text { config with verify } h ..⟩

theorem plansOf_ok (h : (processInput config r s).run x = (.ok s', y)) :
    ∃ plans z, (plansOf config r).run x = (.ok plans, z) := by
  by_cases hmode : config.mode = .directory
  · rw [processInput_of_folder config hmode, processFolder, run_bind_of_ok (run_get x)] at h
    obtain ⟨files, hfiles, h⟩ := bind_lift_ok h
    simp only [plansOf, hmode, documentPattern]
    rw [run_bind_of_ok (run_get x), hfiles, run_bind_of_ok (run_lift_ok _ _)]
    split at h
    · rename_i hempty
      rw [isEmpty_iff.1 hempty]
      exact ⟨_, _, rfl⟩
    · obtain ⟨plans, z, hplan, -⟩ := bind_ok h
      exact ⟨_, z, by rw [run_bind_of_ok hplan]; rfl⟩
  · obtain ⟨subject, hplans, hinput⟩ := exists_subject config hmode r s
    rw [hinput config.verify] at h
    obtain ⟨root, z, hplan, -⟩ := bind_ok h
    exact ⟨[root], z, by rw [hplans, run_bind_of_ok hplan]; rfl⟩

include hd hcache hdone hver hdry in
theorem processInput_repeats {plans : List Node}
    (hdir : config.mode = .directory → ∃ folder, config.outputFolder.filter (· != "") = some folder)
    (h : (processInput config r s).run x = (.ok s', y)) (hplan : (plansOf config r).run x = (.ok plans, z))
    (hplans : ∀ root ∈ plans, Apart x.disk.folder (outputs config y) root) (hbase : config.mode = .directory →
      ∀ e ∈ y.disk.entries, (x.disk.baseFolder config.input).parts <+: e.1 → e ∈ x.disk.entries)
    (hsize : ∀ path ∈ resolved x.disk.folder (outputs config y), path.utf8ByteSize ≤ maxPath) :
    (config.mode = .directory → y.disk = x.disk ∨ x.disk.isFolder (searched config.input).text = true) ∧
      (config.mode ≠ .directory → ∀ q, y.disk.isFolderAt q = x.disk.isFolderAt q) ∧
      Repeats config s x y (processInput { config with verify := true } r s) := by
  by_cases hmode : config.mode = .directory
  · rw [processInput_of_folder config hmode] at h
    rw [processInput_of_folder { config with verify := true } hmode]
    simp only [plansOf, hmode] at hplan
    obtain ⟨folder, hdir⟩ := hdir hmode
    have houtputs : outputs config y = y.completed := if_pos (by simp [writes, hmode])
    rw [houtputs] at hplans hsize
    rw [run_bind_of_ok (run_get x)] at hplan
    obtain ⟨files, hfiles, hplan⟩ := bind_lift_ok hplan
    obtain ⟨found, z₁, hfound, hplan⟩ := bind_ok hplan
    cases hplan
    obtain ⟨hext, hinput, hagain⟩ := processFolder_compare hd hcache hdone ⟨hver, hdry, hdir⟩ h
      (Except.of_mapError_eq_ok hfiles) hfound (fun plan hplan => hplans plan.2 (mem_map_of_mem hplan))
      (hbase hmode) hsize
    exact ⟨fun _ => hinput, by simp [hmode], houtputs.symm ▸ hext, houtputs.symm ▸ hagain⟩
  · obtain ⟨subject, hsubject, hinput⟩ := exists_subject config hmode r s
    rw [hinput config.verify] at h
    rw [hinput true]
    obtain ⟨root, z, hroot, h⟩ := bind_ok h
    rw [hsubject, run_bind_of_ok hroot] at hplan
    cases hplan
    obtain ⟨hdirs, hrep⟩ :=
      single_repeats hd hcache hdone hver hdry subject hmode hroot h (hplans root mem_cons_self) hsize
    exact ⟨fun h => absurd h hmode, fun _ => hdirs, hrep⟩

end Session

end Transclude
