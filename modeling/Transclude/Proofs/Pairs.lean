import Transclude.Proofs.Making
import Transclude.Proofs.Transparency

/-!
# Work done side by side

The same work is done on two desks that may lie on different disks. If both agree with a third desk, the base, on the
paths that are read (`Desk.Serves`), they answer alike (`answers_matched`). Twins of a desk agree with it on all
(`Desk.Twin`), so work that is `Steady` comes to the same on them.
-/

namespace Transclude

open List Desk Output

namespace Output

def isCaching : Output → Bool
  | .event (.cache _) => true
  | _ => false

def isDelivery : Output → Bool
  | .event (.fileCompleted ..) => true
  | .err line => line.toList.head? == some '['
  | _ => false

end Output

/-! ## Desks -/

namespace Desk

variable {errors : List Status}

def heard (d : Desk) : List Output := d.past.filter fun o => !o.isCaching

def deliveries (d : Desk) : List Output := d.past.filter isDelivery

def asked (d : Desk) (c : Cache) (events : List Cache.Event) : Desk :=
  { d with cache := c, past := (events.map fun e => event (.cache e)).reverse ++ d.past }

def reads (desk : Desk) (path : String) : Except Crash (Option String × List Status) := desk.cache.direct desk.disk path

def objections (desk : Desk) (path : String) : Except Crash (List Status) := desk.cache.objections desk.disk path

structure Serves (base : Desk) (known : String → Prop) (d : Desk) : Prop where
  folder : d.disk.folder = base.disk.folder
  limits : Cache.SameLimits base.cache d.cache
  objections : ∀ path, known path → base.cache.objections d.disk path = base.objections path
  reads : ∀ path, known path → base.cache.direct d.disk path = base.reads path
  faithful : d.cache.Faithful d.disk

/-- A desk that differs from another one only in what its cache keeps of the disk, and in what was reported. -/
structure Twin (desk d : Desk) : Prop where
  disk : d.disk = desk.disk
  limits : Cache.SameLimits desk.cache d.cache
  faithful : d.cache.Faithful d.disk
  answers : d.answers = desk.answers
  terminal : d.terminal = desk.terminal
  acceptAll : d.acceptAll = desk.acceptAll
  compiled : d.compiled = desk.compiled

def Twins (desk d d' : Desk) : Prop := desk.Twin d ∧ desk.Twin d'

/-- Whether two desks serve certain paths as a base does and are equal to work that reads no others. -/
structure Alike (base : Desk) (known trusted : String → Prop) (logged : Prop) (d d' : Desk) : Prop where
  left : Serves base known d
  right : Serves base trusted d'
  kept : ∀ e ∈ d.cache.entries, trusted e.1
  kept' : ∀ e ∈ d'.cache.entries, trusted e.1
  answers : d'.answers = d.answers
  terminal : d'.terminal = d.terminal
  acceptAll : d'.acceptAll = d.acceptAll
  compiled : logged → d'.compiled = d.compiled
  heard : logged → d'.heard = d.heard

def Matched (base : Desk) (known trusted : String → Prop) (logged : Prop) (done done' : List Output)
    (d d' : Desk) : Prop :=
  Alike base known trusted logged d d' ∧ d.deliveries = done ∧ d'.deliveries = done'

variable {base desk d d' : Desk} {known trusted : String → Prop} {logged : Prop} {path : String}

theorem reads_cases {value : Option String} (h : desk.reads path = .ok (value, errors)) :
    (∃ text, value = some text ∧ errors = []) ∨
      ∃ e rest, value = none ∧ errors = e :: rest ∧ desk.objections path = .ok (e :: rest) := by
  obtain ⟨found, hfound, h⟩ := Except.of_bind_eq_ok h
  cases found with
  | nil =>
    obtain ⟨text, -, h⟩ := Except.of_bind_eq_ok h
    cases h
    exact .inl ⟨text, rfl, rfl⟩
  | cons e rest =>
    cases h
    exact .inr ⟨e, rest, rfl, rfl, hfound⟩

theorem isFailure_of_objections (h : desk.objections path = .ok errors) : ∀ e ∈ errors, e.isFailure = true := by
  rw [objections, Cache.objections] at h
  split_ifs at h
  cases h
  intro e he
  obtain ⟨refusal, -, rfl⟩ := mem_map.1 he
  cases refusal <;> rfl

theorem outcome_objections (desk : Desk) (path : String) :
    Work.Outcome (desk.objections path = .ok ·) (desk.reads path = .error ·) (desk.objections path) := by
  rw [reads, Cache.direct, ← objections]
  cases desk.objections path <;> exact rfl

theorem serves_of_disk_eq (hdisk : d.disk = base.disk) (hlimits : Cache.SameLimits base.cache d.cache)
    (hfaith : d.cache.Faithful d.disk) : Serves base known d where
  folder := by rw [hdisk]
  limits := hlimits
  objections _ _ := by rw [hdisk, objections]
  reads _ _ := by rw [hdisk, reads]
  faithful := hfaith

theorem Serves.mono {known' : String → Prop} (h : Serves base known d) (hknown : ∀ p, known' p → known p) :
    Serves base known' d :=
  ⟨h.folder, h.limits, fun p hp => h.objections p (hknown p hp), fun p hp => h.reads p (hknown p hp), h.faithful⟩

theorem Serves.validate_eq (h : Serves base known d) (hpath : known path) :
    d.cache.validate d.disk path = base.objections path := by
  rw [h.faithful.validate_eq, h.limits.objections_eq, h.objections path hpath]

theorem Serves.answer_get (h : Serves base known d) (hpath : known path) :
    Cache.answer (d.cache.get d.disk path) = base.reads path := by
  rw [h.faithful.answer_get, h.limits.direct_eq, h.reads path hpath]

theorem Serves.congr (h : Serves base known d) (hdisk : d'.disk = d.disk)
    (hlimits : Cache.SameLimits d.cache d'.cache) (hfaith : d'.cache.Faithful d.disk) :
    Serves base known d' where
  folder := by rw [hdisk, h.folder]
  limits := ⟨hlimits.1.trans h.limits.1, hlimits.2.trans h.limits.2⟩
  objections p hp := by rw [hdisk, h.objections p hp]
  reads p hp := by rw [hdisk, h.reads p hp]
  faithful := by rw [hdisk]; exact hfaith

theorem twin_refl (h : desk.cache.Faithful desk.disk) : desk.Twin desk := ⟨rfl, ⟨rfl, rfl⟩, h, rfl, rfl, rfl, rfl⟩

theorem Twin.serves (h : desk.Twin d) : Serves desk (fun _ => True) d := serves_of_disk_eq h.disk h.limits h.faithful

theorem Serves.alike_self (h : Serves base (fun _ => True) d) :
    Alike base (fun _ => True) (fun _ => True) False d d where
  left := h
  right := h
  kept _ _ := trivial
  kept' _ _ := trivial
  answers := rfl
  terminal := rfl
  acceptAll := rfl
  compiled _ := rfl
  heard _ := rfl

theorem Alike.folder (h : Alike base known trusted logged d d') : d'.disk.folder = d.disk.folder :=
  h.right.folder.trans h.left.folder.symm

end Desk

def Desk.world (desk : Desk) : Plan.World where
  folder := desk.disk.folder
  reads path found := desk.reads path = .ok found
  objects path errors := desk.objections path = .ok errors
  fails path c := desk.reads path = .error c

namespace Work

variable {α : Type} {base desk d d' : Desk} {known trusted : String → Prop} {logged : Prop} {done done' : List Output}
  {path : String} {P : α → Prop} {E : Crash → Prop} {m : Work α}

/-! ## Reading -/

theorem heard_asked (d : Desk) (c : Cache) (events : List Cache.Event) : (d.asked c events).heard = d.heard := by
  have hnone : ((events.map fun e => event (.cache e)).reverse).filter (fun o => !o.isCaching) = [] := by
    simp [isCaching]
  rw [heard, asked, filter_append, hnone, nil_append, heard]

theorem deliveries_asked (d : Desk) (c : Cache) (events : List Cache.Event) :
    (d.asked c events).deliveries = d.deliveries := by
  have hnone : ((events.map fun e => event (.cache e)).reverse).filter isDelivery = [] := by
    simp [isDelivery]
  rw [deliveries, asked, filter_append, hnone, nil_append, deliveries]

theorem run_readFile_of_serves (h : Desk.Serves base known d) (hpath : known path) : ∃ c events, (readFile path).run d = (base.reads path, d.asked c events) ∧
      c.Faithful d.disk ∧ Cache.SameLimits d.cache c ∧
      ∀ e ∈ c.entries, e.1 = path ∨ ∃ kept, (e.1, kept) ∈ d.cache.entries := by
  have hans := h.answer_get hpath
  rw [run_readFile]
  cases hget : d.cache.get d.disk path with
  | error crash =>
    rw [hget] at hans
    rw [← hans]
    exact ⟨d.cache, [], rfl, h.faithful, ⟨rfl, rfl⟩, fun e he => .inr ⟨e.2, he⟩⟩
  | ok reply =>
    rw [hget] at hans
    rw [← hans]
    obtain ⟨hfaith, hlimits⟩ := h.faithful.get_ok hget
    refine ⟨reply.cache, reply.events, rfl, hfaith, hlimits, fun e he => ?_⟩
    rcases (Cache.get_ok hget).2 e he with ⟨kept, hmem, -⟩ | ⟨_, rfl, -⟩
    · exact .inr ⟨kept, hmem⟩
    · exact .inl rfl

theorem even_readFile (hknown : known path) (htrusted : trusted path) :
    Even (Desk.Matched base known trusted logged done done') (base.reads path = .ok ·) (base.reads path = .error ·)
      (readFile path) := by
  rintro d d' ⟨h, hdone, hdone'⟩
  obtain ⟨c, events, hrun, hfaith, hlimits, hents⟩ := run_readFile_of_serves h.left hknown
  obtain ⟨c', events', hrun', hfaith', hlimits', hents'⟩ := run_readFile_of_serves h.right htrusted
  rw [hrun, hrun']
  refine ⟨rfl, outcome_self _, { h with
    left := h.left.congr rfl hlimits hfaith
    right := h.right.congr rfl hlimits' hfaith'
    kept := fun e he => ?_
    kept' := fun e he => ?_
    heard := fun hlogged => by rw [heard_asked, heard_asked, h.heard hlogged] }, ?_, ?_⟩
  · rcases hents e he with he | ⟨kept, he⟩
    · rw [he]
      exact htrusted
    · exact h.kept (e.1, kept) he
  · rcases hents' e he with he | ⟨kept, he⟩
    · rw [he]
      exact htrusted
    · exact h.kept' (e.1, kept) he
  · rw [deliveries_asked, hdone]
  · rw [deliveries_asked, hdone']

theorem answers_matched : Plan.Answers base.world (fun path => known path ∧ trusted path)
    (Desk.Matched base known trusted logged done done') where
  folder h := ⟨h.1.left.folder, h.1.right.folder⟩
  validate hpath h := by
    rw [h.1.left.validate_eq hpath.1, h.1.right.validate_eq hpath.2]
    exact ⟨rfl, base.outcome_objections _⟩
  readFile hpath := even_readFile hpath.1 hpath.2

/-! ## Reporting and asking -/

theorem even_alter {f : Desk → Desk}
    (halike : ∀ d d', Desk.Alike base known trusted logged d d' → Desk.Alike base known trusted logged (f d) (f d'))
    (hdel : ∀ d, (f d).deliveries = d.deliveries) :
    Even (Desk.Matched base known trusted logged done done') (fun _ => True) E (modify f) :=
  even_modify fun d d' h => ⟨halike d d' h.1, (hdel d).trans h.2.1, (hdel d').trans h.2.2⟩

theorem even_report {o : Output} (ho : o.isDelivery = false) :
    Even (Desk.Matched base known trusted logged done done') (fun _ => True) E (report o) := by
  refine even_alter (fun d d' h => ?_) fun d => filter_cons_of_neg (by simp [ho])
  refine { h with left := h.left.congr rfl ⟨rfl, rfl⟩ h.left.faithful,
                  right := h.right.congr rfl ⟨rfl, rfl⟩ h.right.faithful, heard := fun hlogged => ?_ }
  have hheard := h.heard hlogged
  simp only [heard, filter_cons] at hheard ⊢
  rw [hheard]

theorem even_ask : Even (Desk.Matched base known trusted logged done done') (fun _ => True) E ask := by
  refine even_bind_get fun d d' h => ⟨?_, ?_⟩
  · rw [h.1.terminal, h.1.answers]
  · split
    · exact even_pure trivial
    · refine even_bind (even_report rfl) fun _ _ => ?_
      refine even_bind (even_alter (fun d d' h => ?_) fun _ => rfl) fun _ _ => ?_
      · exact { h with
          left := h.left.congr rfl ⟨rfl, rfl⟩ h.left.faithful
          right := h.right.congr rfl ⟨rfl, rfl⟩ h.right.faithful
          answers := by simp only [h.answers] }
      · split
        · exact even_pure trivial
        · exact even_pure trivial

theorem Even.serves {x : Except Crash α} (h : Desk.Serves base (fun _ => True) d)
    (hm : Even (Desk.Matched base (fun _ => True) (fun _ => True) False d.deliveries d.deliveries) P E m)
    (hrun : m.run d = (x, d')) : Desk.Serves base (fun _ => True) d' := by
  have hafter := (hm d d ⟨h.alike_self, rfl, rfl⟩).after.1.left
  rwa [hrun] at hafter

/-! ## Twins -/

abbrev Steady (desk : Desk) (P : α → Prop) (E : Crash → Prop) (m : Work α) : Prop := Even desk.Twins P E m

theorem Steady.outcome (h : Steady desk P E m) (hd : desk.Twin d) : Outcome P E (m.run d).1 := (h d d ⟨hd, hd⟩).outcome

theorem Steady.twin (h : Steady desk P E m) (hdesk : desk.cache.Faithful desk.disk) : desk.Twin (m.run desk).2 :=
  (h desk desk ⟨twin_refl hdesk, twin_refl hdesk⟩).after.1

theorem Steady.self (h : Steady desk P E m) (hdesk : desk.cache.Faithful desk.disk) :
    Steady desk (fun a => P a ∧ (m.run desk).1 = .ok a) (fun c => E c ∧ (m.run desk).1 = .error c) m := by
  intro d d' hd
  obtain ⟨hres, houtcome, hafter⟩ := h d d' hd
  refine ⟨hres, ?_, hafter⟩
  rw [(h desk d ⟨twin_refl hdesk, hd.1⟩).result] at houtcome ⊢
  cases hrun : (m.run desk).1 with
  | ok a => exact ⟨by rwa [hrun] at houtcome, rfl⟩
  | error c => exact ⟨by rwa [hrun] at houtcome, rfl⟩

theorem steady_report (o : Output) : Steady desk (fun _ => True) E (report o) :=
  even_modify fun _ _ ⟨h, h'⟩ => ⟨{ h with }, { h' with }⟩

theorem twin_readFile (h : desk.Twin d) (path : String) :
    ((readFile path).run d).1 = desk.reads path ∧ desk.Twin ((readFile path).run d).2 := by
  obtain ⟨c, events, hrun, hfaith, hlimits, -⟩ := run_readFile_of_serves h.serves trivial
  rw [hrun]
  exact ⟨rfl, { h with
    limits := ⟨hlimits.1.trans h.limits.1, hlimits.2.trans h.limits.2⟩
    faithful := hfaith }⟩

theorem answers_twins (desk : Desk) : Plan.Answers desk.world (fun _ => True) desk.Twins where
  folder h := ⟨by rw [h.1.disk]; rfl, by rw [h.2.disk]; rfl⟩
  validate _ h := by
    rw [h.1.serves.validate_eq trivial, h.2.serves.validate_eq trivial]
    exact ⟨rfl, desk.outcome_objections _⟩
  readFile _ d d' h := by
    obtain ⟨hres, hafter⟩ := twin_readFile h.1 _
    obtain ⟨hres', hafter'⟩ := twin_readFile h.2 _
    exact ⟨hres'.trans hres.symm, hres ▸ outcome_self _, hafter, hafter'⟩

end Work

end Transclude
