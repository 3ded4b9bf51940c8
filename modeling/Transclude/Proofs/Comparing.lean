import Transclude.Proofs.Outputs

/-!
# Comparing what was written

A session is repeated on the disk that it left, to compare its results. If it wrote none of the files that it read,
all is planned and compiled as before, and every file still holds its result.
-/

namespace Transclude

open List Path

namespace Session

open Work Plan

variable {base x x' y y' : Desk} {written : List (List String)} {path : String} {p : Path}

/-! ## Reading what was not written -/

def Trusted (base : Desk) (written : List (List String)) (path : String) : Prop :=
  ∀ e, Disk.Extends written base.disk e →
    base.cache.objections e path = base.objections path ∧ base.cache.direct e path = base.reads path

def Unwritten (cwd : Path) (written : List (List String)) (path : String) : Prop :=
  (resolve cwd (.ofText path)).parts ∉ written

theorem trusted_of_unwritten (hd : base.disk.Grounded) (hpath : Unwritten base.disk.folder written path)
    (h : base.objections path = .ok []) : Trusted base written path := by
  intro e he
  have hfile := (Cache.refusal?_eq_none_iff.1 (Cache.objections_eq_nil_iff.1 h).2).2.1
  exact Cache.direct_congr he.folder fun _ => he.isFile_eq hd hfile hpath

theorem trusted_of_canonical (hd : base.disk.Tidy) (hp : p.Canonical)
    (h : Unwritten base.disk.folder written p.text) : Trusted base written p.text := by
  rw [Unwritten, ofText_text hp.clean, hp.resolve_eq] at h
  exact fun _ he => Cache.direct_congr he.folder fun _ => he.isFile_text hd hp h

theorem reliable (hd : base.disk.Grounded) : Reliable base (fun _ _ => True) (Trusted base written)
    (Unwritten base.disk.folder written) False where
  files _ _ _ := trivial
  occurs h := h.elim
  usable _ hpath h := trusted_of_unwritten hd hpath h

/-! ## Desks of the two sessions -/

structure Steady (base : Desk) (written : List (List String)) (x : Desk) : Prop where
  extended : Disk.Extends written base.disk x.disk
  limits : Cache.SameLimits base.cache x.cache
  faithful : x.cache.Faithful x.disk
  kept : ∀ e ∈ x.cache.entries, Trusted base written e.1

theorem Steady.serves (h : Steady base written x) : Desk.Serves base (Trusted base written) x where
  folder := h.extended.folder
  limits := h.limits
  objections _ hpath := (hpath _ h.extended).1
  reads _ hpath := (hpath _ h.extended).2
  faithful := h.faithful

theorem Steady.moved (h : Steady base written x) (hframe : y = { x with disk := y.disk, past := y.past })
    (hextended : Disk.Extends written base.disk y.disk) : Steady base written y := by
  have hcache : y.cache = x.cache := by rw [hframe]
  refine ⟨hextended, hcache ▸ h.limits, fun e he => ?_, hcache ▸ h.kept⟩
  rw [hcache] at he ⊢
  have htrusted := h.kept e he
  obtain ⟨text, htext, hkept⟩ := h.faithful e he
  refine ⟨text, ?_, hkept⟩
  rw [h.limits.direct_eq] at htext ⊢
  rw [(htrusted _ hextended).2, ← htext, (htrusted _ h.extended).2]

/-- Whether two sessions have come equally far, and all questions will be answered alike. -/
structure Level (base : Desk) (written : List (List String)) (x x' : Desk) : Prop where
  left : Steady base written x
  right : Steady base written x'
  answers : x'.answers = x.answers
  terminal : x'.terminal = x.terminal
  acceptAll : x'.acceptAll = x.acceptAll

theorem Level.alike (h : Level base written x x') :
    Desk.Alike base (Trusted base written) (Trusted base written) False x x' where
  left := h.left.serves
  right := h.right.serves
  kept := h.left.kept
  kept' := h.right.kept
  answers := h.answers
  terminal := h.terminal
  acceptAll := h.acceptAll
  compiled h := h.elim
  heard h := h.elim

theorem level_of_alike {known : String → Prop} (h : Desk.Alike base known (Trusted base written) False x x')
    (hx : Disk.Extends written base.disk x.disk) (hx' : Disk.Extends written base.disk x'.disk) :
    Level base written x x' :=
  ⟨⟨hx, h.left.limits, h.left.faithful, h.kept⟩, ⟨hx', h.right.limits, h.right.faithful, h.kept'⟩,
    h.answers, h.terminal, h.acceptAll⟩

theorem Level.moved (h : Level base written x x') (hframe : y = { x with disk := y.disk, past := y.past })
    (hextended : Disk.Extends written base.disk y.disk) (hframe' : y' = { x' with past := y'.past }) :
    Level base written y y' := by
  refine ⟨h.left.moved hframe hextended, h.right.moved ?_ ?_, ?_, ?_, ?_⟩
  · rw [hframe']
  · rw [hframe']
    exact h.right.extended
  · rw [hframe, hframe']
    exact h.answers
  · rw [hframe, hframe']
    exact h.terminal
  · rw [hframe, hframe']
    exact h.acceptAll

/-! ## Compiling again -/

variable {config : Config} {r : Registry} {dir : String} {root : Node} {result : Except String String}

theorem Level.compileSafely (h : Level base written x x') (hroot : root.Trusts (Trusted base written))
    (hrun : (compileSafely config r dir root).run x = (.ok result, y)) :
    ∃ y', (compileSafely config r dir root).run x' = (.ok result, y') ∧ Level base written y y' ∧
      (y.disk = x.disk ∧ y.deliveries = x.deliveries) ∧ y'.disk = x'.disk ∧ y'.deliveries = x'.deliveries := by
  have hagree := Compile.even_compilePlan (Compile.advances_matched fun _ _ => trivial) config r
    ⟨hroot, fun _ _ _ => .inl trivial⟩ dir x x' ⟨h.alike, rfl, rfl⟩
  obtain ⟨hstand, compiled, hcomp, hres⟩ := compileSafely_ok hrun
  rcases hcomp' : (Compile.compilePlan config r dir root).run x' with ⟨compiled', y'⟩
  obtain ⟨hsame, -, halike, hdel, hdel'⟩ := hagree
  rw [hcomp, hcomp'] at hsame halike
  rw [hcomp] at hdel
  rw [hcomp'] at hdel'
  obtain rfl : compiled' = compiled := hsame
  have hrun' : (Session.compileSafely config r dir root).run x' = (.ok result, y') := by
    rw [run_compileSafely, hcomp] at hrun
    rw [run_compileSafely, hcomp']
    rcases compiled' with c | text
    · cases c <;> cases hrun <;> rfl
    · cases hrun
      rfl
  have hdisk : y.disk = x.disk := congrArg Prod.fst hstand
  have hdisk' : y'.disk = x'.disk := congrArg Prod.fst ((quiet_compileSafely dir root).leaves.view_eq hrun')
  refine ⟨y', hrun', level_of_alike halike ?_ ?_, ⟨hdisk, hdel⟩, hdisk', hdel'⟩
  · rw [hdisk]
    exact h.left.extended
  · rw [hdisk']
    exact h.right.extended

/-! ## Many files -/

variable {top : Path} {folder input : String} {s s' : Summary} {index total : Nat} {plans rest : List (String × Node)}

section

variable (hto : WritesTo config config.outputFolder folder)
include hto

theorem handOver_extends (hd : x.disk.Firm)
    (h : (handOver config top index total input root s result).run x = (.ok s', y)) :
    ∃ places, Disk.Extends places x.disk y.disk := by
  rcases handOver_write hd hto h with ⟨-, hframe, -⟩ | ⟨_, _, -, -, -, hwrote, -⟩
  · rw [hframe]
    exact ⟨[], Disk.extends_refl _ _⟩
  · exact ⟨_, hwrote.extended⟩

theorem compileFiles_write (hd : x.disk.Firm)
    (h : (compileFiles config r top total index s plans).run x = (.ok s', y)) :
    ∃ outs : List Path, y.completed = x.completed ++ outs.map text ∧
      Disk.Extends (outs.map parts) x.disk y.disk ∧
      ∀ out ∈ outs, out.Canonical ∧ out.parts ∈ plans.map fun plan => outputPlace x.disk.folder top folder plan.1 := by
  induction plans generalizing x index s with
  | nil =>
    cases h
    exact ⟨[], (append_nil _).symm, Disk.extends_refl _ _, forall_mem_nil _⟩
  | cons plan rest ih =>
    obtain ⟨result, x₁, s₁, x₂, -, ⟨hdisk, hdone⟩, hhand, hrest⟩ := compileFiles_cons_ok h
    rw [← hdisk] at hd ⊢
    rcases handOver_write hd hto hhand with
      ⟨-, hframe, hsame⟩ | ⟨text, p, -, -, hpath, hwrote, hmore⟩
    · have hdisk₂ : x₂.disk = x₁.disk := by rw [hframe]
      rw [← hdisk₂] at hd ⊢
      obtain ⟨outs, houts, hext, hplaces⟩ := ih hd hrest
      refine ⟨outs, by rw [houts, hsame, hdone], hext, fun out hout => ?_⟩
      exact ⟨(hplaces out hout).1, mem_cons_of_mem _ (hplaces out hout).2⟩
    · obtain ⟨hclean, hplace⟩ := outputPath_ok hd.canonical hpath
      have hcanon := hd.canonical.resolve hclean
      obtain ⟨outs, houts, hext, hplaces⟩ := ih (hwrote.extended.firm hd) hrest
      rw [hwrote.extended.folder] at hplaces
      refine ⟨resolve x₁.disk.folder p :: outs, ?_, ?_, forall_mem_cons.2 ⟨⟨hcanon, ?_⟩, ?_⟩⟩
      · rw [houts, hmore, hdone, append_assoc]
        rfl
      · exact (hwrote.extended.mono (by simp)).trans (hext.mono (subset_cons_self _ _))
      · rw [hplace]
        exact mem_cons_self
      · exact fun out hout => ⟨(hplaces out hout).1, mem_cons_of_mem _ (hplaces out hout).2⟩

theorem Level.handOver {later : List (List String)} (hd : base.disk.Firm) (hlevel : Level base written x x')
    (hroot : root.hasFailure = false)
    (hpath : outputPath base.disk.folder top folder input = .ok p)
    (h : (handOver config top index total input root s result).run x = (.ok s', y))
    (hlater : Disk.Extends later y.disk x'.disk) (hplace : outputPlace base.disk.folder top folder input ∉ later)
    (hwritten : ∀ path ∈ y.completed, (ofText path).parts ∈ written ∧ path.utf8ByteSize ≤ Disk.maxPath)
    (s₂ : Summary) :
    ∃ s₂' y' outs,
      (handOver { config with verify := true } top index total input root s₂ result).run x' = (.ok s₂', y') ∧
      y.completed = x.completed ++ outs ∧ Passes s₂ x' (outs.map freshLine) s₂' y' ∧ Level base written y y' := by
  have hcwd : x.disk.folder = base.disk.folder := hlevel.left.extended.folder
  have hcwd' : x'.disk.folder = base.disk.folder := hlevel.right.extended.folder
  have hgrounded' := hlevel.right.extended.grounded hd.toGrounded
  rcases handOver_write (hlevel.left.extended.firm hd) hto h with
    ⟨hempty, hframe, hsame⟩ | ⟨text, q, rfl, hne, hq, hwrote, hmore⟩
  · obtain ⟨s₂', y', hrun, hframe', hpass⟩ := handOver_skip config x' hto.path (hcwd' ▸ hpath) hroot hempty s₂
    have hdisk : y.disk = x.disk := by rw [hframe]
    refine ⟨s₂', y', [], hrun, by rw [hsame, append_nil], hpass, ?_⟩
    refine hlevel.moved ?_ (hdisk ▸ hlevel.left.extended) hframe'
    rw [hframe]
  · rw [hcwd, hpath] at hq
    obtain rfl := Except.ok.inj hq
    rw [hcwd] at hwrote hmore
    obtain ⟨hclean, hout⟩ := outputPath_ok hd.canonical hpath
    have hcanon := hd.canonical.resolve hclean
    have hmem : (resolve base.disk.folder p).text ∈ y.completed := by
      rw [hmore]
      exact mem_append_right _ mem_cons_self
    obtain ⟨hparts, hsize⟩ := hwritten _ hmem
    rw [ofText_text hcanon.clean] at hparts
    have hfresh :
        Freshness.check x'.disk config.lineEndings text (resolve x'.disk.folder p).text = .ok .upToDate := by
      rw [hcwd']
      exact Freshness.check_of_holds hgrounded' hcanon hsize (hwrote.holds.of_extends hlater (by rwa [hout]))
    obtain ⟨s₂', y', hrun, hframe', hpass⟩ := handOver_compare config x' hto.path (hcwd' ▸ hpath) hroot hne hfresh s₂
    rw [hcwd'] at hpass
    refine ⟨s₂', y', _, hrun, hmore, hpass, hlevel.moved hwrote.frame ?_ hframe'⟩
    exact hlevel.left.extended.trans (hwrote.extended.mono (by simpa using hparts))

end

structure Separate (base : Desk) (written : List (List String)) (top : Path) (folder : String)
    (plans : List (String × Node)) : Prop where
  trusts : ∀ plan ∈ plans, plan.2.Trusts (Trusted base written)
  succeeds : ∀ plan ∈ plans, plan.2.hasFailure = false
  outputs : ∀ plan ∈ plans, ∃ p, outputPath base.disk.folder top folder plan.1 = .ok p
  nodup : (plans.map fun plan => outputPlace base.disk.folder top folder plan.1).Nodup

theorem Separate.tail {plan : String × Node} (h : Separate base written top folder (plan :: plans)) :
    Separate base written top folder plans where
  trusts other hother := h.trusts other (mem_cons_of_mem _ hother)
  succeeds other hother := h.succeeds other (mem_cons_of_mem _ hother)
  outputs other hother := h.outputs other (mem_cons_of_mem _ hother)
  nodup := (nodup_cons.1 h.nodup).2

theorem Level.begin (h : Level base written x x') (e : Event) : Level base written (x.after e) (x'.after e) :=
  h.moved rfl h.left.extended rfl

theorem compileFiles_compare (hto : WritesTo config config.outputFolder folder) (hd : base.disk.Firm)
    (hlevel : Level base written x x') (hplans : Separate base written top folder plans)
    (h : (compileFiles config r top total index s plans).run x = (.ok s', y)) (hdisk : x'.disk = y.disk)
    (hwritten : ∀ path ∈ y.completed, (ofText path).parts ∈ written ∧ path.utf8ByteSize ≤ Disk.maxPath)
    (s₂ : Summary) :
    ∃ s₂' y' outs, (compileFiles { config with verify := true } r top total index s₂ plans).run x' = (.ok s₂', y') ∧
      y.completed = x.completed ++ outs ∧ Passes s₂ x' (outs.map freshLine) s₂' y' := by
  induction plans generalizing x x' index s s₂ with
  | nil =>
    cases h
    exact ⟨s₂, x', [], rfl, (append_nil _).symm, passes_of_verdicts rfl rfl⟩
  | cons plan rest ih =>
    obtain ⟨input, root⟩ := plan
    obtain ⟨result, x₁, s₁, x₂, hcompile, ⟨-, hbegun⟩, hhand, hrest⟩ := compileFiles_cons_ok h
    obtain ⟨x₁', hcompile', hlevel₁, ⟨hdisk₁, -⟩, hdisk₁', hdel'⟩ :=
      (hlevel.begin _).compileSafely (hplans.trusts _ mem_cons_self) hcompile
    have hcwd : x.disk.folder = base.disk.folder := hlevel.left.extended.folder
    have hcwd' : x'.disk.folder = base.disk.folder := hlevel.right.extended.folder
    have hfirm := hlevel₁.left.extended.firm hd
    obtain ⟨_, hext⟩ := handOver_extends hto hfirm hhand
    have hcwd₂ : x₂.disk.folder = base.disk.folder := hext.folder.trans hlevel₁.left.extended.folder
    obtain ⟨later, hdone, hlater, hplaces⟩ := compileFiles_write hto (hext.firm hfirm) hrest
    rw [hcwd₂] at hplaces
    obtain ⟨p, hpath⟩ := hplans.outputs _ mem_cons_self
    have hplace : outputPlace base.disk.folder top folder input ∉ later.map parts := by
      intro hmem
      obtain ⟨out, hout, heq⟩ := mem_map.1 hmem
      have hother := (hplaces out hout).2
      rw [heq] at hother
      exact (nodup_cons.1 hplans.nodup).1 hother
    have hdisk₂ : x₁'.disk = y.disk := hdisk₁'.trans hdisk
    obtain ⟨s₃, x₂', outs, hhand', hnew, hpass, hlevel₂⟩ := hlevel₁.handOver hto hd
      (hplans.succeeds _ mem_cons_self) hpath hhand (hdisk₂ ▸ hlater) hplace
      (fun path hpath => hwritten path (hdone ▸ mem_append_left _ hpath)) s₂
    obtain ⟨s₂', y', outs', hrest', hnew', hpass'⟩ := ih hlevel₂ hplans.tail hrest (hpass.disk.trans hdisk₂) s₃
    refine ⟨s₂', y', outs ++ outs', ?_, ?_, ?_⟩
    · have hcompile₂ : (compileSafely { config with verify := true } r
          (Target.folderBelow x'.disk.folder top config.outputFolder input) root).run
            (x'.after (.fileStarted input root.count index total)) = (.ok result, x₁') := by
        rw [hcwd', ← hcwd]
        exact hcompile'
      rw [compileFiles_cons, run_bind_of_ok (run_get x'), run_bind_of_ok (run_emit ..), run_bind_of_ok hcompile₂,
        run_bind_of_ok hhand']
      exact hrest'
    · rw [hnew', hnew, hbegun, append_assoc]
    · have hbegun' : Passes s₂ x' [] s₂ x₁' :=
        passes_of_verdicts hdisk₁' ((Desk.verdicts_congr hdel').trans (Desk.verdicts_after ..))
      rw [map_append]
      exact hbegun'.append (hpass.append hpass')

/-! ## Planning again -/

variable {paths embedded : List String}

structure Abreast (base : Desk) (written : List (List String)) (x x' y y' : Desk) : Prop where
  alike : Plan.Alike base (Trusted base written) False y y'
  disk : y.disk = x.disk
  disk' : y'.disk = x'.disk
  deliveries' : y'.deliveries = x'.deliveries

theorem Abreast.trans {z z' : Desk} (h : Abreast base written x x' y y') (h' : Abreast base written y y' z z') :
    Abreast base written x x' z z' :=
  ⟨h'.alike, h'.disk.trans h.disk, h'.disk'.trans h.disk', h'.deliveries'.trans h.deliveries'⟩

theorem abreast_after (h : Plan.Alike base (Trusted base written) False x x') (e : Event)
    (he : (Output.event e).isDelivery = false) : Abreast base written x x' (x.after e) (x'.after e) := by
  obtain ⟨halike, -, hdel'⟩ := (even_report (E := fun _ => True) he x x' ⟨h, rfl, rfl⟩).after
  exact ⟨halike, rfl, rfl, hdel'⟩

theorem plan_again (subject : Subject) (hd : base.disk.Grounded)
    (htidy : ∀ content, subject = .text content → base.disk.Tidy)
    (h : Plan.Alike base (Trusted base written) False x x') (hrun : (subject.plan config r).run x = (.ok root, y))
    (hroot : root.Sound (Unwritten base.disk.folder written)) :
    ∃ y', (subject.plan config r).run x' = (.ok root, y') ∧ Abreast base written x x' y y' ∧
      root.Trusts (Trusted base written) := by
  have hrun₁ : ((subject.plan config r).run x).1 = .ok root := by rw [hrun]
  have htext : ∀ content, subject = .text content → Trusted base written (subject.source base.disk.folder) ∧ True := by
    rintro content rfl
    have hsrc : root.directive = Subject.directive config base.disk.folder (.text content) :=
      (rooted_of_serves h.left hrun₁).directive_eq
    have hcanon : (base.disk.folder.join { root := "", parts := ["<stdin>"] }).Canonical := by
      refine (htidy content rfl).canonical.join rfl (forall_mem_singleton.2 ⟨?_, ?_⟩)
        (forall_mem_singleton.2 ?_) <;> decide
    have hunwritten := hroot.sources root root.self_mem_walk
    rw [hsrc] at hunwritten
    exact ⟨trusted_of_canonical (htidy content rfl) hcanon hunwritten, trivial⟩
  obtain ⟨hres, houtcome, halike, -, hdel'⟩ :=
    agree_plan (reliable hd) (fun h => h.elim) htext ⟨h, rfl, rfl⟩ (.inr ⟨root, hrun₁, hroot⟩)
  rcases hrun' : (subject.plan config r).run x' with ⟨result', y'⟩
  rw [hrun, hrun'] at hres halike
  rw [hrun] at houtcome
  rw [hrun'] at hdel'
  obtain rfl : result' = .ok root := hres
  have hdisk := congrArg Prod.fst ((quiet_plan subject).leaves.view_eq hrun)
  have hdisk' := congrArg Prod.fst ((quiet_plan subject).leaves.view_eq hrun')
  exact ⟨y', rfl, ⟨halike, hdisk, hdisk', hdel'⟩, houtcome⟩

theorem planAll_verify (config : Config) (r : Registry) (files : List String) :
    planAll { config with verify := true } r files = planAll config r files := by
  have hplan (total : Nat) (paths : List String) (embedded : List String) (index : Nat) :
      planFiles { config with verify := true } r total embedded index paths =
        planFiles config r total embedded index paths := by
    induction paths generalizing embedded index with
    | nil => rfl
    | cons path rest ih =>
      rw [planFiles]
      simp only [ih]
      rfl
  rw [planAll, planAll, hplan]

theorem planFiles_again (hd : base.disk.Grounded) (h : Plan.Alike base (Trusted base written) False x x')
    (hrun : (planFiles config r total embedded index paths).run x = (.ok plans, y))
    (hplans : ∀ plan ∈ plans, plan.2.Sound (Unwritten base.disk.folder written)) :
    ∃ y', (planFiles config r total embedded index paths).run x' = (.ok plans, y') ∧
      Abreast base written x x' y y' ∧ (∀ plan ∈ plans, plan.2.Trusts (Trusted base written)) ∧
      (plans.map (·.1)).Sublist paths := by
  induction paths generalizing x x' embedded index plans with
  | nil =>
    cases hrun
    exact ⟨x', rfl, ⟨h, rfl, rfl, rfl⟩, forall_mem_nil _, .slnil⟩
  | cons path rest ih =>
    have hclear : ∀ plan ∈ plans, plan.2.hasFailure = false := fun plan hplan => by
      rw [Node.hasFailure, (hplans plan hplan).failures]
      rfl
    rcases planFiles_cons_ok hrun with ⟨hemb, hrest⟩ | ⟨hemb, root, x₁, more, later, hroot, hmore, rfl, hrest⟩
    · obtain ⟨y', hrest', habreast, htrusts, hpaths⟩ := ih h hrest hplans
      refine ⟨y', ?_, habreast, htrusts, hpaths.cons path⟩
      rw [planFiles, run_bind_of_ok (run_get x')]
      rw [h.folder, if_pos hemb]
      exact hrest'
    · have hfail : root.hasFailure = false := hclear (path, root) mem_cons_self
      obtain ⟨x₂, -, hx₂, hlater⟩ := hrest.resolve_left fun h => absurd h.1 (by simp [hfail])
      obtain rfl := hx₂ hfail
      obtain ⟨hsound, hothers⟩ := forall_mem_cons.1 hplans
      obtain ⟨x₁', hroot', hfirst, htrust⟩ := plan_again (.file path) hd (fun _ h => by cases h) h hroot hsound
      rw [Subject.plan] at hroot'
      have hsecond := hfirst.trans (abreast_after hfirst.alike (.filePlanned path index total) rfl)
      obtain ⟨y', hlater', hthird, htrusts, hpaths⟩ := ih hsecond.alike hlater hothers
      refine ⟨y', ?_, hsecond.trans hthird, forall_mem_cons.2 ⟨htrust, htrusts⟩, hpaths.cons_cons path⟩
      rw [planFiles, run_bind_of_ok (run_get x')]
      rw [h.folder, if_neg hemb, run_bind_of_ok hroot', hmore, run_bind_of_ok (run_lift_ok _ _), hfail,
        if_neg Bool.false_ne_true, run_bind_of_ok (run_emit ..), run_bind_of_ok hlater']
      rfl

theorem planAll_again (hd : base.disk.Grounded) (h : Plan.Alike base (Trusted base written) False x x')
    (hrun : (planAll config r paths).run x = (.ok plans, y))
    (hplans : ∀ plan ∈ plans, plan.2.Sound (Unwritten base.disk.folder written)) :
    ∃ y', (planAll { config with verify := true } r paths).run x' = (.ok plans, y') ∧
      Abreast base written x x' y y' ∧ (∀ plan ∈ plans, plan.2.Trusts (Trusted base written)) ∧
      (plans.map (·.1)).Sublist paths := by
  rw [planAll_verify]
  rw [planAll, run_bind_of_ok (run_emit ..)] at hrun ⊢
  obtain ⟨found, x₁, hfound, hrun⟩ := bind_ok hrun
  cases hrun
  have hfirst := abreast_after h (.planningStarted paths.length) rfl
  obtain ⟨x₁', hfound', hsecond, htrusts, hpaths⟩ := planFiles_again hd hfirst.alike hfound hplans
  rw [run_bind_of_ok hfound']
  have hthird := abreast_after hsecond.alike (.planningComplete plans.length (plans.countP (·.2.hasFailure))) rfl
  exact ⟨_, rfl, (hfirst.trans hsecond).trans hthird, htrusts, hpaths⟩

end Session

end Transclude
