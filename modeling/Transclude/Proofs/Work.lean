import Mathlib.Data.List.Forall2
import Transclude.Work

/-!
# Reasoning about work

`Even A P E m` says of work `m` that on two desks that are related by `A` it comes to the same and leaves them related,
with a result for which `P` holds or a crash for which `E` holds. There is one rule for each way of putting work
together.
-/

namespace Transclude.Work

open List

variable {α β : Type} {A : Desk → Desk → Prop} {P P' : α → Prop} {Q : β → Prop} {E E' : Crash → Prop} {f : α → Work β}
  {m : Work α} {x r : Except Crash α} {R : α → β → Prop} {b : β} {l : List α} {c : Crash} {a : α}
variable {d d' d₁ : Desk}


/-! ## Running -/

@[simp] theorem run_get (d : Desk) : (get : Work Desk).run d = (.ok d, d) := rfl

@[simp] theorem run_modify (f : Desk → Desk) (d : Desk) :
    (modify f : Work Unit).run d = (.ok (), f d) := rfl

@[simp] theorem run_lift_ok (a : α) (d : Desk) : (lift (.ok a)).run d = (.ok a, d) := rfl

@[simp] theorem run_lift_error (c : Crash) (d : Desk) :
    (lift (.error c) : Work α).run d = (.error c, d) := rfl

theorem run_bind_of_ok (h : m.run d = (.ok a, d₁)) : (m >>= f).run d = (f a).run d₁ := by
  rw [ExceptT.run_bind]
  change StateT.run (m.run >>= _) d = _
  rw [StateT.run_bind, show StateT.run m.run d = _ from h]
  rfl

theorem run_bind_of_error (h : m.run d = (.error c, d₁)) : (m >>= f).run d = (.error c, d₁) := by
  rw [ExceptT.run_bind]
  change StateT.run (m.run >>= _) d = _
  rw [StateT.run_bind, show StateT.run m.run d = _ from h]
  rfl

theorem bind_ok (h : (m >>= f).run d = (.ok b, d')) :
    ∃ a d₁, m.run d = (.ok a, d₁) ∧ (f a).run d₁ = (.ok b, d') := by
  rcases hm : m.run d with ⟨_ | a, d₁⟩
  · rw [run_bind_of_error hm] at h
    cases h
  · rw [run_bind_of_ok hm] at h
    exact ⟨a, d₁, rfl, h⟩

theorem pure_ok {b : α} (h : (pure a : Work α).run d = (.ok b, d')) : b = a ∧ d' = d := by
  cases h
  exact ⟨rfl, rfl⟩

theorem map_ok {f : α → β} (h : (f <$> m).run d = (.ok b, d')) :
    ∃ a, m.run d = (.ok a, d') ∧ f a = b := by
  obtain ⟨a, d₁, hm, h⟩ := bind_ok h
  cases h
  exact ⟨a, hm, rfl⟩

theorem bind_lift_ok (h : (lift x >>= f).run d = (.ok b, d')) : ∃ a, x = .ok a ∧ (f a).run d = (.ok b, d') := by
  cases x with
  | error c => cases h
  | ok a => exact ⟨a, rfl, h⟩

/-- Work that comes to a result with a property, which can be decided by running it. -/
def Comes (m : Work α) (d : Desk) (P : α → Desk → Prop) : Prop := ∃ a ∈ (m.run d).1.toOption, P a (m.run d).2

instance {d : Desk} {P : α → Desk → Prop} [∀ a d, Decidable (P a d)] : Decidable (Comes m d P) :=
  inferInstanceAs (Decidable (∃ a ∈ (m.run d).1.toOption, P a (m.run d).2))

theorem Comes.exists {P : α → Desk → Prop} (h : Comes m d P) : ∃ a d', m.run d = (.ok a, d') ∧ P a d' := by
  obtain ⟨a, ha, h⟩ := h
  refine ⟨a, _, Prod.ext ?_ rfl, h⟩
  cases hx : (m.run d).1 <;> rw [hx] at ha <;> cases ha
  rfl

/-! ## Doing the same on two desks -/

def Outcome (P : α → Prop) (E : Crash → Prop) : Except Crash α → Prop
  | .ok a => P a
  | .error c => E c

theorem outcome_self (x : Except Crash α) : Outcome (x = .ok ·) (x = .error ·) x := by cases x <;> exact rfl

theorem Outcome.imp (h : Outcome P E x) (hP : ∀ a, P a → P' a) (hE : ∀ c, E c → E' c) : Outcome P' E' x := by
  cases x with
  | ok a => exact hP a h
  | error c => exact hE c h

structure Agree (A : Desk → Desk → Prop) (P : α → Prop) (E : Crash → Prop) (x x' : Except Crash α × Desk) : Prop where
  result : x'.1 = x.1
  outcome : Outcome P E x.1
  after : A x.2 x'.2

def Even (A : Desk → Desk → Prop) (P : α → Prop) (E : Crash → Prop) (m : Work α) : Prop :=
  ∀ d d', A d d' → Agree A P E (m.run d) (m.run d')

theorem even_of_run (hm : ∀ d d', A d d' → m.run d = (x, d) ∧ m.run d' = (x, d')) (hx : Outcome P E x) : Even A P E m := by
  intro d d' h
  obtain ⟨hrun, hrun'⟩ := hm d d' h
  rw [hrun, hrun']
  exact ⟨rfl, hx, h⟩

theorem even_pure (h : P a) : Even A P E (pure a) := even_of_run (fun _ _ _ => ⟨rfl, rfl⟩) h

theorem even_throw (h : E c) : Even A P E (throw c) := even_of_run (fun _ _ _ => ⟨rfl, rfl⟩) h

theorem even_lift (h : Outcome P E r) : Even A P E (lift r) := by
  cases r with
  | ok a => exact even_pure h
  | error c => exact even_throw h

theorem Even.imp (h : Even A P E m) (hP : ∀ a, P a → P' a) (hE : ∀ c, E c → E' c) : Even A P' E' m := by
  intro d d' hd
  obtain ⟨hres, houtcome, hafter⟩ := h d d' hd
  exact ⟨hres, houtcome.imp hP hE, hafter⟩

theorem even_bind (hm : Even A P E m) (hf : ∀ a, P a → Even A Q E (f a)) : Even A Q E (m >>= f) := by
  intro d d' h
  obtain ⟨hres, houtcome, hafter⟩ := hm d d' h
  rcases hrun : m.run d with ⟨c | a, d₁⟩ <;> rcases hrun' : m.run d' with ⟨x', d₁'⟩ <;>
    rw [hrun, hrun'] at hres hafter <;> rw [hrun] at houtcome <;> obtain rfl := hres
  · rw [run_bind_of_error hrun, run_bind_of_error hrun']
    exact ⟨rfl, houtcome, hafter⟩
  · rw [run_bind_of_ok hrun, run_bind_of_ok hrun']
    exact hf a houtcome d₁ d₁' hafter

theorem even_bind_lift (hf : ∀ a, r = .ok a → Even A Q E (f a)) (herror : ∀ c, r = .error c → E c) : Even A Q E (lift r >>= f) := by
  cases r with
  | ok a => exact hf a rfl
  | error c => exact even_throw (herror c rfl)

theorem even_bind_get {f : Desk → Work β} (hf : ∀ d d', A d d' → f d' = f d ∧ Even A Q E (f d)) :
    Even A Q E (get >>= f) := by
  intro d d' h
  obtain ⟨hsame, heven⟩ := hf d d' h
  rw [run_bind_of_ok (run_get d'), hsame]
  exact heven d d' h

theorem even_map {f : α → β} (hm : Even A P E m) (hf : ∀ a, P a → Q (f a)) : Even A Q E (f <$> m) := by
  exact even_bind hm fun a ha => even_pure (hf a ha)

theorem even_mapM (h : ∀ x ∈ l, Even A (R x) E (f x)) : Even A (List.Forall₂ R l) E (l.mapM f) := by
  induction l with
  | nil => exact even_pure .nil
  | cons x l ih =>
    rw [mapM_cons]
    refine even_bind (h x mem_cons_self) fun y hy => ?_
    exact even_bind (ih fun z hz => h z (mem_cons_of_mem _ hz)) fun ys hys => even_pure (.cons hy hys)

theorem even_filterMapM {p : α → Bool} {f : α → Work (Option β)}
    (h : ∀ x ∈ l, Even A (fun y => if p x then ∃ b, y = some b ∧ R x b else y = none) E (f x)) :
    Even A (List.Forall₂ R (l.filter p)) E (l.filterMapM f) := by
  induction l with
  | nil => exact even_pure .nil
  | cons x l ih =>
    rw [filterMapM_cons]
    refine even_bind (h x mem_cons_self) fun y hy => ?_
    have ih := ih fun z hz => h z (mem_cons_of_mem _ hz)
    by_cases hx : p x
    · rw [if_pos hx] at hy
      obtain ⟨b, rfl, hb⟩ := hy
      rw [filter_cons_of_pos hx]
      exact even_bind ih fun ys hys => even_pure (.cons hb hys)
    · rw [if_neg hx] at hy
      subst hy
      rw [filter_cons_of_neg hx]
      exact ih

theorem even_foldlM {f : β → α → Work β} (h : ∀ b x, Even A (fun _ => True) E (f b x)) (l : List α) (b : β) :
    Even A (fun _ => True) E (l.foldlM f b) := by
  induction l generalizing b with
  | nil => exact even_pure trivial
  | cons x l ih =>
    exact even_bind (h b x) fun b' _ => ih b'

theorem even_forIn {f : α → Work Unit} (h : ∀ x, Even A (fun _ => True) E (f x)) (l : List α) :
    Even A (fun _ => True) E (forIn l PUnit.unit fun x _ => do f x; pure (.yield PUnit.unit)) := by
  induction l with
  | nil => exact even_pure trivial
  | cons x l ih =>
    rw [forIn_cons, bind_assoc]
    exact even_bind (h x) fun _ _ => ih

theorem even_modify {f : Desk → Desk} (h : ∀ d d', A d d' → A (f d) (f d')) : Even A (fun _ => True) E (modify f) :=
  fun d d' hd => ⟨rfl, trivial, h d d' hd⟩

/-! ### One desk -/

def Alone (I : Desk → Prop) (d d' : Desk) : Prop := d' = d ∧ I d

theorem even_alone {I : Desk → Prop} (h : ∀ d, I d → I (m.run d).2 ∧ Outcome P E (m.run d).1) :
    Even (Alone I) P E m := by
  rintro d _ ⟨rfl, hd⟩
  exact ⟨rfl, (h _ hd).2, rfl, (h _ hd).1⟩

end Transclude.Work
