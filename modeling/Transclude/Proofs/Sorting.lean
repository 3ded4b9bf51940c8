import Mathlib.Data.List.Basic
import Mathlib.Order.Lattice
import Transclude.Sorting

/-!
# Stable sorting

`Sorts less xs ys` says that `ys` is the stable sort of `xs` by an order, of which there is only one (`Sorts.unique`).
Insertion by halving finds it wherever the order compares like a ranking (`sorts_ascending`). Sorting by a second
order and then by a first one sorts by the two together (`Sorts.refine`).
-/

namespace Transclude.Sorting

open List Bool

variable {α β : Type} {S : α → Prop} {less first second : α → α → Bool} {x y z : α} {xs ys zs : List α}

/-! ## Orders -/

structure OrdersOn (S : α → Prop) (less : α → α → Bool) : Prop where
  asymm : ∀ {a b}, S a → S b → less a b = true → less b a = false
  between : ∀ {a b c}, S a → S b → S c → less a c = true → less a b = true ∨ less b c = true

def tied (less : α → α → Bool) (a b : α) : Bool := !less a b && !less b a

def thenBy (first second : α → α → Bool) (a b : α) : Bool := first a b || (!first b a && second a b)

def backwards (less : α → α → Bool) (a b : α) : Bool := less b a

theorem tied_eq_true_iff : tied less x y = true ↔ less x y = false ∧ less y x = false := by simp [tied]

theorem tied_thenBy (a b : α) : tied (thenBy first second) a b = (tied first a b && tied second a b) := by
  unfold tied thenBy
  cases first a b <;> cases first b a <;> simp

namespace OrdersOn

theorem of_rank {κ : Type} [LinearOrder κ] (rank : α → κ)
    (hrank : ∀ {a b}, S a → S b → (less a b = true ↔ rank a < rank b)) : OrdersOn S less where
  asymm ha hb hless := by
    rw [← not_eq_true, hrank hb ha]
    exact lt_asymm ((hrank ha hb).1 hless)
  between {a b c} ha hb hc hless := by
    rw [hrank ha hb, hrank hb hc]
    exact or_iff_not_imp_left.2 fun hnot => lt_of_le_of_lt (not_lt.1 hnot) ((hrank ha hc).1 hless)

theorem mono {S' : α → Prop} (h : OrdersOn S less) (hS : ∀ a, S' a → S a) : OrdersOn S' less where
  asymm ha hb := h.asymm (hS _ ha) (hS _ hb)
  between ha hb hc := h.between (hS _ ha) (hS _ hb) (hS _ hc)

theorem comap (h : OrdersOn S less) (key : β → α) : OrdersOn (fun b => S (key b)) fun a b => less (key a) (key b) where
  asymm := h.asymm
  between := h.between

theorem irrefl (h : OrdersOn S less) (hx : S x) : less x x = false := by
  by_contra hless
  have hself := h.asymm hx hx (by simpa using hless)
  exact hless hself

theorem tied_self (h : OrdersOn S less) (hx : S x) : tied less x x = true :=
  tied_eq_true_iff.2 ⟨h.irrefl hx, h.irrefl hx⟩

theorem not_less_trans (h : OrdersOn S less) (hx : S x) (hy : S y) (hz : S z) (hyx : less y x = false)
    (hzy : less z y = false) : less z x = false := by
  by_contra hzx
  rcases h.between hz hy hx (by simpa using hzx) with hless | hless
  · rw [hzy] at hless
    cases hless
  · rw [hyx] at hless
    cases hless

theorem less_of_less_of_not_less (h : OrdersOn S less) (hx : S x) (hy : S y) (hz : S z) (hxy : less x y = true)
    (hzy : less z y = false) : less x z = true := by
  rcases h.between hx hz hy hxy with hless | hless
  · exact hless
  · rw [hzy] at hless
    cases hless

theorem less_trans (h : OrdersOn S less) (hx : S x) (hy : S y) (hz : S z) (hxy : less x y = true)
    (hyz : less y z = true) : less x z = true :=
  h.less_of_less_of_not_less hx hy hz hxy (h.asymm hy hz hyz)

theorem tied_eq_of_tied (h : OrdersOn S less) (hx : S x) (hy : S y) (hz : S z) (hxy : tied less x y = true) :
    tied less x z = tied less y z := by
  obtain ⟨hxy, hyx⟩ := tied_eq_true_iff.1 hxy
  rw [Bool.eq_iff_iff, tied_eq_true_iff, tied_eq_true_iff]
  constructor
  · rintro ⟨hxz, hzx⟩
    exact ⟨h.not_less_trans hz hx hy hxz hyx, h.not_less_trans hy hx hz hxy hzx⟩
  · rintro ⟨hyz, hzy⟩
    exact ⟨h.not_less_trans hz hy hx hyz hxy, h.not_less_trans hx hy hz hyx hzy⟩

theorem backwards (h : OrdersOn S less) : OrdersOn S (backwards less) where
  asymm ha hb := h.asymm hb ha
  between ha hb hc hless := (h.between hc hb ha hless).symm

theorem thenBy (hfirst : OrdersOn S first) (hsecond : OrdersOn S second) : OrdersOn S (thenBy first second) where
  asymm {a b} ha hb hless := by
    have hf := hfirst.asymm ha hb
    have hs := hsecond.asymm ha hb
    unfold Sorting.thenBy at hless ⊢
    cases hab : first a b <;> simp_all
  between {a b c} ha hb hc hless := by
    have hac := hfirst.between ha hb hc
    have hba := hfirst.between hb hc ha
    have hcb := hfirst.between hc ha hb
    have hs := hsecond.between ha hb hc
    unfold Sorting.thenBy at hless ⊢
    cases hfac : first a c with
    | true =>
      rcases hac hfac with hab | hbc
      · simp [hab]
      · simp [hbc]
    | false =>
      rw [hfac, Bool.false_or, Bool.and_eq_true, Bool.not_eq_true'] at hless
      -- where the first order ties `a` and `c`, it decides neither against `b` nor for it
      rcases hs hless.2 with hab | hbc
      · cases hfba : first b a with
        | true =>
          rcases hba hfba with hbc | hca
          · simp [hbc]
          · rw [hless.1] at hca
            cases hca
        | false => simp [hab]
      · cases hfcb : first c b with
        | true =>
          rcases hcb hfcb with hca | hab
          · rw [hless.1] at hca
            cases hca
          · simp [hab]
        | false => simp [hbc]

end OrdersOn

/-! ## Stable sorts -/

structure Sorts (less : α → α → Bool) (xs ys : List α) : Prop where
  perm : ys.Perm xs
  sorted : ys.Pairwise fun a b => less b a = false
  stable : ∀ x ∈ xs, ys.filter (tied less x) = xs.filter (tied less x)

namespace Sorts

theorem nil : Sorts less [] [] := ⟨.nil, .nil, fun _ _ => rfl⟩

theorem mem_iff (h : Sorts less xs ys) : x ∈ ys ↔ x ∈ xs := h.perm.mem_iff

theorem reverse (h : Sorts less xs.reverse ys) : Sorts (backwards less) xs ys.reverse where
  perm := (reverse_perm ys).trans (h.perm.trans (reverse_perm xs))
  sorted := pairwise_reverse.2 h.sorted
  stable x hx := by
    have htied : tied (backwards less) x = tied less x := funext fun y => and_comm _ _
    rw [htied, filter_reverse, h.stable x (mem_reverse.2 hx), filter_reverse, reverse_reverse]

theorem filter_tied (hys : Sorts less xs ys) (h : OrdersOn S less) (hS : ∀ x ∈ xs, S x) (hz : S z) :
    ys.filter (tied less z) = xs.filter (tied less z) := by
  by_cases hany : ∃ x ∈ xs, tied less z x = true
  · obtain ⟨x, hx, htied⟩ := hany
    have hsame : ∀ y ∈ xs, tied less z y = tied less x y := fun y hy => h.tied_eq_of_tied hz (hS x hx) (hS y hy) htied
    rw [filter_congr hsame, filter_congr fun y hy => hsame y (hys.mem_iff.1 hy), hys.stable x hx]
  · have hnone : ∀ x ∈ xs, ¬tied less z x = true := fun x hx htied => hany ⟨x, hx, htied⟩
    rw [filter_eq_nil_iff.2 hnone, filter_eq_nil_iff.2 fun y hy => hnone y (hys.mem_iff.1 hy)]

theorem map_snd (key : α → β) (less : β → β → Bool) {xs : List α} {ys : List (β × α)}
    (h : Sorts (fun a b : β × α => less a.1 b.1) (xs.map fun x => (key x, x)) ys) :
    Sorts (fun a b => less (key a) (key b)) xs (ys.map (·.2)) := by
  have hkeyed : ∀ y ∈ ys, y.1 = key y.2 := by
    intro y hy
    obtain ⟨x, -, rfl⟩ := mem_map.1 (h.mem_iff.1 hy)
    rfl
  have hmap : (xs.map fun x => (key x, x)).map (·.2) = xs := (map_map).trans (map_id xs)
  refine ⟨?_, pairwise_map.2 (h.sorted.imp_of_mem fun ha hb hab => ?_), fun x hx => ?_⟩
  · have hperm := h.perm.map (·.2)
    rwa [hmap] at hperm
  · rwa [hkeyed _ ha, hkeyed _ hb] at hab
  · -- the elements tied with one are those whose keys are tied with its key
    have hfilt := congrArg (List.map (·.2)) (h.stable (key x, x) (mem_map_of_mem hx))
    rw [filter_map, map_map] at hfilt
    rw [filter_map]
    have hleft : ys.filter (tied (fun a b => less (key a) (key b)) x ∘ (·.2)) =
        ys.filter (tied (fun a b : β × α => less a.1 b.1) (key x, x)) := by
      refine filter_congr fun y hy => ?_
      simp only [Function.comp_apply, tied, hkeyed y hy]
    rw [hleft, hfilt]
    exact map_id _

theorem unique (h : OrdersOn S less) (hys : Sorts less xs ys) (hzs : Sorts less xs zs) (hS : ∀ x ∈ xs, S x) :
    ys = zs := by
  induction ys generalizing xs zs with
  | nil =>
    obtain rfl := hys.perm.nil_eq
    exact (hzs.perm.eq_nil).symm
  | cons y ys ih =>
    cases zs with
    | nil => exact absurd (hys.perm.trans hzs.perm.symm).eq_nil (cons_ne_nil _ _)
    | cons z zs =>
      have hyz := hys.perm.trans hzs.perm.symm
      have hSy : ∀ a ∈ y :: ys, S a := fun a ha => hS a (hys.mem_iff.1 ha)
      have hSz : ∀ a ∈ z :: zs, S a := fun a ha => hS a (hzs.mem_iff.1 ha)
      have hy := hSy y mem_cons_self
      have hz := hSz z mem_cons_self
      -- both first elements are least, so they are tied, and the first of what is tied with them
      have hzy : less z y = false := by
        rcases mem_cons.1 (hyz.mem_iff.2 mem_cons_self) with rfl | hmem
        · exact h.irrefl hz
        · exact rel_of_pairwise_cons hys.sorted hmem
      have hyz' : less y z = false := by
        rcases mem_cons.1 (hyz.mem_iff.1 mem_cons_self) with rfl | hmem
        · exact h.irrefl hy
        · exact rel_of_pairwise_cons hzs.sorted hmem
      have hyxs := hys.mem_iff.1 (mem_cons_self (a := y))
      have hfilt := (hys.stable y hyxs).trans (hzs.stable y hyxs).symm
      rw [filter_cons_of_pos (h.tied_self hy), filter_cons_of_pos (tied_eq_true_iff.2 ⟨hyz', hzy⟩)] at hfilt
      obtain ⟨rfl, -⟩ := List.cons.inj hfilt
      have htail : Sorts less ys zs := by
        refine ⟨(perm_cons y).1 hyz.symm, hzs.sorted.tail, fun x hx => ?_⟩
        have hx := hys.mem_iff.1 (mem_cons_of_mem y hx)
        have hx := (hzs.stable x hx).trans (hys.stable x hx).symm
        rw [filter_cons, filter_cons] at hx
        split at hx
        · exact (List.cons.inj hx).2
        · exact hx
      have hself : Sorts less ys ys := ⟨.refl _, hys.sorted.tail, fun _ _ => rfl⟩
      rw [ih hself htail fun a ha => hSy a (mem_cons_of_mem _ ha)]

theorem refine (h : OrdersOn S first) (hsecond : Sorts second xs ys) (hfirst : Sorts first ys zs) (hS : ∀ x ∈ xs, S x) :
    Sorts (thenBy first second) xs zs where
  perm := hfirst.perm.trans hsecond.perm
  sorted := by
    refine pairwise_iff_forall_sublist.2 fun {a b} hab => ?_
    have hba : first b a = false := pairwise_iff_forall_sublist.1 hfirst.sorted hab
    cases hless : first a b with
    | true => simp [thenBy, hba, hless]
    | false =>
      -- what the first order ties stands in the order of the list before
      have hmem : a ∈ ys := hfirst.mem_iff.1 (hab.subset mem_cons_self)
      have ha : S a := hS a (hsecond.mem_iff.1 hmem)
      have hsub : [a, b].Sublist (ys.filter (tied first a)) := by
        have hfilt := hab.filter (tied first a)
        rwa [filter_cons_of_pos (h.tied_self ha), filter_cons_of_pos (tied_eq_true_iff.2 ⟨hless, hba⟩),
          hfirst.stable a hmem] at hfilt
      have hlater := pairwise_iff_forall_sublist.1 (hsecond.sorted.filter (tied first a)) hsub
      simp [thenBy, hba, hlater]
  stable x hx := by
    have hboth : ∀ l : List α, l.filter (tied (thenBy first second) x) =
        (l.filter (tied first x)).filter (tied second x) := by
      intro l
      rw [filter_filter]
      exact filter_congr fun y _ => (tied_thenBy x y).trans (and_comm _ _)
    calc zs.filter (tied (thenBy first second) x)
        = (ys.filter (tied first x)).filter (tied second x) := by rw [hboth, hfirst.stable x (hsecond.mem_iff.2 hx)]
      _ = (ys.filter (tied second x)).filter (tied first x) := by
        rw [filter_filter, filter_filter]
        exact filter_congr fun y _ => and_comm _ _
      _ = (xs.filter (tied second x)).filter (tied first x) := by rw [hsecond.stable x hx]
      _ = xs.filter (tied (thenBy first second) x) := by
        rw [hboth, filter_filter, filter_filter]
        exact filter_congr fun y _ => and_comm _ _

end Sorts

/-! ## Insertion -/

section Insertion

variable (h : OrdersOn S less)

include h

theorem place_splits (hx : S x) (hys : ∀ y ∈ ys, S y) (hsort : ys.Pairwise fun a b => less b a = false)
    (low high : Nat) (hhigh : high ≤ ys.length) (hbefore : ∀ y ∈ ys.take low, less x y = false)
    (hafter : ∀ y ∈ ys.drop high, less x y = true) :
    (∀ y ∈ ys.take (place less x ys low high), less x y = false) ∧
    ∀ y ∈ ys.drop (place less x ys low high), less x y = true := by
  fun_induction place less x ys low high with
  | case1 low high hlow middle y hmiddle hless ih =>
    -- the element in the middle is greater, and so is what follows it
    obtain ⟨hlt, rfl⟩ := List.getElem?_eq_some_iff.1 hmiddle
    refine ih (Nat.le_of_lt hlt) hbefore fun z hz => ?_
    have hdrop := hsort.drop (i := middle)
    rw [drop_eq_getElem_cons hlt] at hz hdrop
    rcases mem_cons.1 hz with rfl | hz
    · exact hless
    · exact h.less_of_less_of_not_less hx (hys _ (getElem_mem hlt)) (hys z (mem_of_mem_drop hz)) hless
        (rel_of_pairwise_cons hdrop hz)
  | case2 low high hlow middle y hmiddle hless ih =>
    -- the element in the middle is not greater, and neither is what stands before it
    obtain ⟨hlt, rfl⟩ := List.getElem?_eq_some_iff.1 hmiddle
    refine ih hhigh (fun z hz => ?_) hafter
    have htake := hsort.take (i := middle + 1)
    rw [take_succ_eq_append_getElem hlt] at hz htake
    rcases mem_append.1 hz with hz | hz
    · have hzm := (pairwise_append.1 htake).2.2 z hz _ mem_cons_self
      exact h.not_less_trans (hys z (mem_of_mem_take hz)) (hys _ (getElem_mem hlt)) hx hzm (by simpa using hless)
    · rw [mem_singleton.1 hz]
      simpa using hless
  | case3 low high hlow middle hmiddle =>
    have := List.getElem?_eq_none_iff.1 hmiddle
    omega
  | case4 low high hlow => exact ⟨hbefore, fun y hy => hafter y (drop_subset_drop_left ys (by omega) hy)⟩

theorem sorts_insert (hys : Sorts less xs ys) (hxs : ∀ y ∈ xs, S y) (hx : S x) :
    Sorts less (xs ++ [x]) (insert less ys x) := by
  have hS : ∀ y ∈ ys, S y := fun y hy => hxs y (hys.mem_iff.1 hy)
  obtain ⟨hbefore, hafter⟩ := place_splits h hx hS hys.sorted 0 ys.length (Nat.le_refl _) (by simp) (by simp)
  rw [insert]
  generalize place less x ys 0 ys.length = n at hbefore hafter
  have hparts := hys.sorted
  rw [← take_append_drop n ys] at hparts
  obtain ⟨hleft, hright, hcross⟩ := pairwise_append.1 hparts
  refine ⟨?_, pairwise_append.2 ⟨hleft, pairwise_cons.2 ⟨fun y hy => ?_, hright⟩, ?_⟩, fun z hz => ?_⟩
  · refine perm_middle.trans ?_
    rw [take_append_drop]
    exact (hys.perm.cons x).trans (perm_append_singleton x xs).symm
  · exact h.asymm hx (hS y (mem_of_mem_drop hy)) (hafter y hy)
  · intro a ha b hb
    rcases mem_cons.1 hb with rfl | hb
    · exact hbefore a ha
    · exact hcross a ha b hb
  · have hz : S z := by
      rcases mem_append.1 hz with hz | hz
      · exact hxs z hz
      · exact mem_singleton.1 hz ▸ hx
    rw [filter_append, filter_append, ← hys.filter_tied h hxs hz]
    nth_rewrite 3 [← take_append_drop n ys]
    rw [filter_append]
    cases htied : tied less z x with
    | false => simp [htied]
    | true =>
      -- what comes after the place is greater than all that is tied with the element
      have hnone : (ys.drop n).filter (tied less z) = [] := by
        refine filter_eq_nil_iff.2 fun y hy hzy => ?_
        rw [h.tied_eq_of_tied hz hx (hS y (mem_of_mem_drop hy)) htied, tied_eq_true_iff, hafter y hy] at hzy
        cases hzy.1
      simp [htied, hnone]

theorem sorts_foldl_insert (hys : Sorts less xs ys) (hS : ∀ x ∈ xs ++ zs, S x) :
    Sorts less (xs ++ zs) (zs.foldl (insert less) ys) := by
  induction zs generalizing xs ys with
  | nil => rwa [append_nil]
  | cons z zs ih =>
    rw [append_cons] at hS ⊢
    refine ih (sorts_insert h hys (fun x hx => hS x ?_) (hS z ?_)) hS <;> simp [*]

end Insertion

/-! ## Runs -/

theorem run_spec (follows : α → α → Bool) (x : α) (ys : List α) : (run follows x ys).1 ++ (run follows x ys).2 = ys ∧
    (x :: (run follows x ys).1).IsChain fun a b => follows a b = true := by
  fun_induction run follows x ys with
  | case1 x => exact ⟨rfl, .singleton x⟩
  | case2 x y ys hfollows taken rest heq ih =>
    rw [heq] at ih
    exact ⟨by rw [cons_append, ih.1], .cons_cons hfollows ih.2⟩
  | case3 x y ys hfollows => exact ⟨rfl, .singleton x⟩

theorem pairwise_of_isChain {R : α → α → Prop} (trans : ∀ {a b c}, S a → S b → S c → R a b → R b c → R a c)
    (hchain : xs.IsChain R) (hS : ∀ x ∈ xs, S x) : xs.Pairwise R := by
  induction hchain with
  | nil => exact .nil
  | singleton x => exact pairwise_singleton R x
  | @cons_cons x y ys hxy _ ih =>
    have hrest := ih fun a ha => hS a (mem_cons_of_mem _ ha)
    refine pairwise_cons.2 ⟨fun z hz => ?_, hrest⟩
    rcases mem_cons.1 hz with rfl | hz
    · exact hxy
    · exact trans (hS x (by simp)) (hS y (by simp)) (hS z (by simp [hz])) hxy (rel_of_pairwise_cons hrest hz)

section Runs

variable (h : OrdersOn S less)

include h

theorem sorts_of_rising (hchain : xs.IsChain fun a b => (!less b a) = true) (hS : ∀ x ∈ xs, S x) :
    Sorts less xs xs := by
  have hrising : xs.IsChain fun a b => less b a = false := hchain.imp fun a b hab => by simpa using hab
  exact ⟨.refl _, pairwise_of_isChain h.not_less_trans hrising hS, fun _ _ => rfl⟩

theorem sorts_of_falling (hchain : xs.IsChain fun a b => less b a = true) (hS : ∀ x ∈ xs, S x) :
    Sorts less xs xs.reverse := by
  have hfalling : xs.Pairwise fun a b => less b a = true :=
    pairwise_of_isChain (fun ha hb hc hba hcb => h.less_trans hc hb ha hcb hba) hchain hS
  refine ⟨reverse_perm xs, pairwise_reverse.2 (hfalling.imp_of_mem fun ha hb hba => ?_), fun x hx => ?_⟩
  · exact h.asymm (hS _ hb) (hS _ ha) hba
  · -- no two elements are tied, so at most one is tied with `x`
    have hpair : (xs.filter (tied less x)).Pairwise fun _ _ => False := by
      refine (hfalling.filter (tied less x)).imp_of_mem fun {a b} ha hb hba => ?_
      obtain ⟨hamem, hxa⟩ := mem_filter.1 ha
      obtain ⟨hbmem, hxb⟩ := mem_filter.1 hb
      rw [h.tied_eq_of_tied (hS x hx) (hS a hamem) (hS b hbmem) hxa, tied_eq_true_iff, hba] at hxb
      cases hxb.2
    rw [filter_reverse]
    rcases hfilt : xs.filter (tied less x) with _ | ⟨a, _ | ⟨b, rest⟩⟩
    · rfl
    · rfl
    · rw [hfilt] at hpair
      exact (rel_of_pairwise_cons hpair mem_cons_self).elim

theorem sorts_ascending (hS : ∀ x ∈ xs, S x) : Sorts less xs (ascending less xs) := by
  rcases xs with _ | ⟨x, _ | ⟨y, ys⟩⟩
  · exact .nil
  · exact sorts_of_rising h (.singleton x) hS
  · have hjoin : ∀ follows : α → α → Bool,
        x :: (run follows x (y :: ys)).1 ++ (run follows x (y :: ys)).2 = x :: y :: ys :=
      fun follows => congrArg (x :: ·) (run_spec follows x (y :: ys)).1
    have hmem : ∀ follows : α → α → Bool, ∀ z ∈ x :: (run follows x (y :: ys)).1, S z :=
      fun follows z hz => hS z (hjoin follows ▸ mem_append_left _ hz)
    rw [ascending]
    split
    · rw [← hjoin fun a b => less b a] at hS ⊢
      exact sorts_foldl_insert h (sorts_of_falling h (run_spec _ x (y :: ys)).2 (hmem _)) hS
    · rw [← hjoin fun a b => !less b a] at hS ⊢
      exact sorts_foldl_insert h (sorts_of_rising h (run_spec _ x (y :: ys)).2 (hmem _)) hS

theorem sorts_descending (hS : ∀ x ∈ xs, S x) : Sorts (backwards less) xs (descending less xs) :=
  (sorts_ascending h fun x hx => hS x (mem_reverse.1 hx)).reverse

end Runs

section Keys

variable {S : β → Prop} {less : β → β → Bool} (h : OrdersOn S less) (key : α → β) (hS : ∀ x ∈ xs, S (key x))

include h hS

theorem sorts_ascending_keyed : Sorts (fun a b => less (key a) (key b)) xs
    ((ascending (fun a b : β × α => less a.1 b.1) (xs.map fun x => (key x, x))).map (·.2)) :=
  .map_snd key less (sorts_ascending (h.comap Prod.fst) (forall_mem_map.2 hS))

theorem sorts_descending_keyed : Sorts (fun a b => backwards less (key a) (key b)) xs
    ((descending (fun a b : β × α => less a.1 b.1) (xs.map fun x => (key x, x))).map (·.2)) :=
  .map_snd key (backwards less) (sorts_descending (h.comap Prod.fst) (forall_mem_map.2 hS))

end Keys

end Transclude.Sorting
