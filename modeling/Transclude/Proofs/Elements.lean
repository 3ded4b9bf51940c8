import Transclude.Proofs.Addresses

/-!
# Elements as values

An element becomes a mapping of its attributes, its text and its children, those of one name under one key (`Normal`).
So every element of a document is found where its names and positions lead (`follow_document`), unless a name looks
like a key that was made up.
-/

namespace Transclude.Xml

open List Text Number Query Element Value

def Element.attributes : Element → List (String × String)
  | .node _ attributes _ _ => attributes

def Element.text : Element → String
  | .node _ _ text _ => text

def Element.children : Element → List Element
  | .node _ _ _ children => children

def named (tag : String) (es : List Element) : List Element := es.filter fun e => e.tag = tag

section Named

variable {tag : String} {e : Element} {es : List Element}

theorem named_append (tag : String) (es fs : List Element) : named tag (es ++ fs) = named tag es ++ named tag fs :=
  filter_append es fs

theorem named_cons_self (e : Element) (es : List Element) : named e.tag (e :: es) = e :: named e.tag es :=
  filter_cons_of_pos (decide_eq_true rfl)

theorem named_ne_nil_iff : named tag es ≠ [] ↔ tag ∈ es.map Element.tag := by
  rw [named]
  simp

end Named

/-! ## Groups of children -/

def IsGrouping (groups : List (String × List Value)) (es : List Element) : Prop :=
  ∃ tags : List String, tags.Nodup ∧ (∀ tag, tag ∈ tags ↔ tag ∈ es.map Element.tag) ∧
    groups = tags.map fun tag => (tag, (named tag es).map value)

section Groups

variable {tags : List String} {tag : String} {groups : List (String × List Value)} {es : List Element}

theorem addChild_of_mem (g : String → List Value) (v : Value) (hnodup : tags.Nodup) (hmem : tag ∈ tags) :
    addChild (tags.map fun t => (t, g t)) tag v = tags.map fun t => (t, if t = tag then g t ++ [v] else g t) := by
  induction tags with
  | nil => cases hmem
  | cons t rest ih =>
    obtain ⟨ht, hrest⟩ := nodup_cons.1 hnodup
    rw [map_cons, map_cons, addChild]
    by_cases heq : t = tag
    · subst heq
      rw [if_pos (beq_self_eq_true t), if_pos rfl]
      refine congrArg _ (map_congr_left fun t' ht' => ?_)
      rw [if_neg (ne_of_mem_of_not_mem ht' ht)]
    · rw [if_neg (by simpa using heq), if_neg heq, ih hrest ((mem_cons.1 hmem).resolve_left (Ne.symm heq))]

theorem addChild_of_not_mem (g : String → List Value) (v : Value) (hmem : tag ∉ tags) :
    addChild (tags.map fun t => (t, g t)) tag v = (tags.map fun t => (t, g t)) ++ [(tag, [v])] := by
  induction tags with
  | nil => rfl
  | cons t rest ih =>
    rw [mem_cons, not_or] at hmem
    rw [map_cons, addChild, if_neg (by simpa using Ne.symm hmem.1), ih hmem.2, cons_append]

theorem IsGrouping.addChild (h : IsGrouping groups es) (e : Element) :
    IsGrouping (addChild groups e.tag e.value) (es ++ [e]) := by
  obtain ⟨tags, hnodup, htags, rfl⟩ := h
  have hnamed : ∀ t, named t (es ++ [e]) = named t es ++ if t = e.tag then [e] else [] := by
    intro t
    by_cases ht : t = e.tag <;> simp [named, ht, eq_comm]
  by_cases hmem : e.tag ∈ tags
  · refine ⟨tags, hnodup, fun tag => ?_, ?_⟩
    · rw [map_append, mem_append, htags]
      refine (or_iff_left_of_imp fun htag => ?_).symm
      rw [mem_singleton.1 htag]
      exact (htags _).1 hmem
    · -- Only the group of this name changes, since it is the only one with the name.
      rw [addChild_of_mem _ _ hnodup hmem]
      refine map_congr_left fun t _ => ?_
      rw [hnamed]
      split_ifs <;> simp
  · refine ⟨tags ++ [e.tag], ?_, fun tag => ?_, ?_⟩
    · exact nodup_append_comm.1 (nodup_cons.2 ⟨hmem, hnodup⟩)
    · rw [map_append, mem_append, mem_append, htags]
      rfl
    · have hnone : named e.tag es = [] := by
        by_contra hne
        exact hmem ((htags _).2 (named_ne_nil_iff.1 hne))
      rw [addChild_of_not_mem _ _ hmem, map_append, map_singleton, hnamed, hnone, if_pos rfl]
      refine congrArg (· ++ _) (map_congr_left fun t ht => ?_)
      rw [hnamed, if_neg (ne_of_mem_of_not_mem ht hmem), append_nil]

theorem IsGrouping.childGroups (h : IsGrouping groups es) (fs : List Element) :
    IsGrouping (childGroups groups fs) (es ++ fs) := by
  induction fs generalizing groups es with
  | nil => rwa [append_nil]
  | cons e rest ih =>
    have hcons : Xml.childGroups groups (e :: rest) = Xml.childGroups (Xml.addChild groups e.tag e.value) rest := by
      cases e
      rfl
    rw [hcons, append_cons]
    exact ih (h.addChild e)

theorem isGrouping_childGroups (es : List Element) : IsGrouping (childGroups [] es) es := by
  have hnone : IsGrouping [] [] := ⟨[], nodup_nil, fun _ => Iff.rfl, rfl⟩
  exact hnone.childGroups es

end Groups

/-! ## Keys -/

def Element.key (e : Element) : String := if e.tag = "attributes" ∨ e.tag = "value" then "`" ++ e.tag ++ "`" else e.tag

section Keys

variable {s t : String}

theorem childKey_eq (tag : String) :
    childKey tag = if tag = "attributes" ∨ tag = "value" then "`" ++ tag ++ "`" else tag := by
  have hmark : String.singleton (Char.ofNat 96) = "`" := by decide
  have hreserved : reservedKeys.contains tag = true ↔ tag = "attributes" ∨ tag = "value" := by simp [reservedKeys]
  rw [childKey, hmark]
  by_cases h : tag = "attributes" ∨ tag = "value"
  · rw [if_pos h, if_pos (hreserved.2 h)]
  · rw [if_neg h, if_neg (mt hreserved.1 h)]

theorem childKey_tag (e : Element) : childKey e.tag = e.key := childKey_eq e.tag

theorem mark_mem (s : String) : Char.ofNat 96 ∈ ("`" ++ s ++ "`").toList := by
  rw [String.toList_append]
  exact mem_append_right _ mem_cons_self

theorem childKey_ne (tag : String) : childKey tag ≠ "attributes" ∧ childKey tag ≠ "value" := by
  rw [childKey_eq]
  split_ifs with h
  · constructor
    · exact fun heq => absurd (heq ▸ mark_mem tag) (by decide)
    · exact fun heq => absurd (heq ▸ mark_mem tag) (by decide)
  · exact not_or.1 h

theorem childKey_inj (hs : Char.ofNat 96 ∉ s.toList) (ht : Char.ofNat 96 ∉ t.toList) (h : childKey s = childKey t) :
    s = t := by
  rw [childKey_eq, childKey_eq] at h
  split_ifs at h with hs' ht' ht'
  · have hchars := congrArg String.toList h
    simp only [String.toList_append] at hchars
    exact String.toList_inj.1 (append_cancel_left (append_cancel_right hchars))
  · exact absurd (h ▸ mark_mem s) ht
  · exact absurd (h ▸ mark_mem t) hs
  · exact h

end Keys

/-! ## Entries -/

section Entries

variable {entries : List (Value × Value)}

theorem put_of_not_mem (htexts : ∀ e ∈ entries, ∃ k, e.1 = .text k) {k : String} (v : Value)
    (hk : .text k ∉ entries.map Prod.fst) : put entries (.text k) v = entries ++ [(.text k, v)] := by
  induction entries with
  | nil => rfl
  | cons e rest ih =>
    obtain ⟨key, w⟩ := e
    obtain ⟨⟨a, hkey⟩, hrest⟩ := forall_mem_cons.1 htexts
    obtain rfl : key = .text a := hkey
    rw [map_cons, mem_cons, not_or, text.injEq] at hk
    have hsame : sameKey (.text a) (.text k) = false := beq_eq_false_iff_ne.2 (Ne.symm hk.1)
    rw [put, hsame, if_neg Bool.false_ne_true, ih hrest hk.2, cons_append]

theorem foldl_put (new : List (String × Value)) (h : Value.Keyed (entries ++ new.map fun x => (.text x.1, x.2))) :
    new.foldl (fun es x => put es (.text x.1) x.2) entries = entries ++ new.map fun x => (.text x.1, x.2) := by
  induction new generalizing entries with
  | nil => rw [foldl_nil, map_nil, append_nil]
  | cons x rest ih =>
    obtain ⟨k, v⟩ := x
    have hk : .text k ∉ entries.map Prod.fst := by
      have hnodup := h.nodup
      rw [map_append] at hnodup
      intro hmem
      exact (disjoint_of_nodup_append hnodup) hmem mem_cons_self
    have hput := put_of_not_mem (fun e he => h.texts e (mem_append_left _ he)) v hk
    rw [map_cons, append_cons] at h ⊢
    rw [foldl_cons, hput, ih h]

end Entries

/-! ## Normal forms -/

def Element.own (e : Element) : List (Value × Value) :=
  (if e.attributes.isEmpty then []
    else [(.text "attributes", .map (e.attributes.map fun a => (.text a.1, .text a.2)))]) ++
  if strip e.text == "" then [] else [(.text "value", .text (strip e.text))]

def Element.entries (e : Element) (tags : List String) : List (Value × Value) :=
  e.own ++ tags.map fun tag => (.text (childKey tag), groupValue ((named tag e.children).map value))

/-- The entries of an element: its attributes and its text if there are any, and its children under keys of their own.
-/
structure Normal (e : Element) (entries : List (Value × Value)) : Prop where
  keyed : Value.Keyed entries
  attributes : ∀ v, (.text "attributes", v) ∈ entries ↔
    e.attributes ≠ [] ∧ v = .map (e.attributes.map fun a => (.text a.1, .text a.2))
  text : ∀ v, (.text "value", v) ∈ entries ↔ strip e.text ≠ "" ∧ v = .text (strip e.text)
  single : ∀ c : Element, named c.tag e.children = [c] → (.text c.key, c.value) ∈ entries
  several : ∀ c : Element, 2 ≤ (named c.tag e.children).length →
    (.text c.key, .list ((named c.tag e.children).map value)) ∈ entries
  only : ∀ k v, (k, v) ∈ entries → k = .text "attributes" ∨ k = .text "value" ∨ ∃ c ∈ e.children, k = .text c.key

section Normal

variable {e : Element} {tags : List String}

theorem mem_own_iff {k v : Value} : (k, v) ∈ e.own ↔
      (k = .text "attributes" ∧ e.attributes ≠ [] ∧ v = .map (e.attributes.map fun a => (.text a.1, .text a.2))) ∨
        k = .text "value" ∧ strip e.text ≠ "" ∧ v = .text (strip e.text) := by
  rw [own, mem_append]
  refine or_congr ?_ ?_
  · split_ifs with h
    · simp [List.isEmpty_iff.1 h]
    · simp [mt List.isEmpty_iff.2 h]
  · split_ifs with h
    · simp [beq_iff_eq.1 h]
    · simp [mt beq_iff_eq.2 h]

theorem keyed_own (e : Element) : Value.Keyed e.own where
  texts := by
    rintro ⟨k, v⟩ hmem
    rcases mem_own_iff.1 hmem with ⟨rfl, -⟩ | ⟨rfl, -⟩
    · exact ⟨_, rfl⟩
    · exact ⟨_, rfl⟩
  nodup := by
    rw [own]
    split_ifs <;> simp

theorem keyed_entries (hmark : ∀ tag ∈ tags, Char.ofNat 96 ∉ tag.toList) (hnodup : tags.Nodup) :
    Value.Keyed (e.entries tags) where
  texts := by
    refine forall_mem_append.2 ⟨(keyed_own e).texts, ?_⟩
    rintro x hx
    obtain ⟨tag, -, rfl⟩ := mem_map.1 hx
    exact ⟨_, rfl⟩
  nodup := by
    have hkeys : ((tags.map fun tag =>
        (text (childKey tag), groupValue ((named tag e.children).map value))).map Prod.fst) =
        tags.map fun tag => text (childKey tag) := by
      rw [map_map]
      rfl
    rw [entries, map_append, hkeys, nodup_append']
    refine ⟨(keyed_own e).nodup, ?_, ?_⟩
    · exact List.Nodup.map_on (fun s hs t ht heq => childKey_inj (hmark s hs) (hmark t ht) (text.inj heq)) hnodup
    · intro key hown hchild
      obtain ⟨⟨k, v⟩, hmem, rfl⟩ := mem_map.1 hown
      obtain ⟨tag, -, heq⟩ := mem_map.1 hchild
      rcases mem_own_iff.1 hmem with ⟨rfl, -⟩ | ⟨rfl, -⟩
      · exact (childKey_ne tag).1 (text.inj heq)
      · exact (childKey_ne tag).2 (text.inj heq)

theorem exists_entries (hmark : ∀ c ∈ e.children, Char.ofNat 96 ∉ c.tag.toList) :
    ∃ tags : List String, (∀ tag, tag ∈ tags ↔ tag ∈ e.children.map Element.tag) ∧ e.value = .map (e.entries tags) ∧
      Value.Keyed (e.entries tags) := by
  obtain ⟨tags, hnodup, htags, hgroups⟩ := isGrouping_childGroups e.children
  have hkeyed : Value.Keyed (e.entries tags) := by
    refine keyed_entries (fun tag htag => ?_) hnodup
    obtain ⟨c, hc, rfl⟩ := mem_map.1 ((htags tag).1 htag)
    exact hmark c hc
  refine ⟨tags, htags, ?_, hkeyed⟩
  have hval : e.value = .map ((childGroups [] e.children).foldl
      (fun es g => put es (.text (childKey g.1)) (groupValue g.2)) e.own) := by
    cases e
    rfl
  have hents : e.entries tags = e.own ++ (tags.map fun tag =>
      (childKey tag, groupValue ((named tag e.children).map Element.value))).map fun x => (Value.text x.1, x.2) := by
    rw [map_map]
    rfl
  rw [hents] at hkeyed ⊢
  rw [hval, hgroups, ← foldl_put _ hkeyed, foldl_map, foldl_map]

theorem groupValue_of_two_le {vs : List Value} (h : 2 ≤ vs.length) : groupValue vs = .list vs := by
  rcases vs with _ | ⟨v, _ | ⟨w, rest⟩⟩
  · rfl
  · exact absurd h (by simp)
  · rfl

theorem mem_entries_iff {k v : Value} : (k, v) ∈ e.entries tags ↔ (k, v) ∈ e.own ∨
      ∃ tag ∈ tags, .text (childKey tag) = k ∧ groupValue ((named tag e.children).map value) = v := by
  rw [entries, mem_append, mem_map]
  simp only [Prod.mk.injEq]

theorem normal_entries (htags : ∀ tag, tag ∈ tags ↔ tag ∈ e.children.map Element.tag)
    (hkeyed : Value.Keyed (e.entries tags)) : Normal e (e.entries tags) where
  keyed := hkeyed
  attributes v := by
    rw [mem_entries_iff, mem_own_iff]
    constructor
    · rintro ((h | ⟨heq, -⟩) | ⟨tag, -, heq, -⟩)
      · exact h.2
      · exact absurd (text.inj heq) (by decide)
      · exact absurd (text.inj heq) (childKey_ne tag).1
    · exact fun h => .inl (.inl ⟨rfl, h⟩)
  text v := by
    rw [mem_entries_iff, mem_own_iff]
    constructor
    · rintro ((⟨heq, -⟩ | h) | ⟨tag, -, heq, -⟩)
      · exact absurd (text.inj heq) (by decide)
      · exact h.2
      · exact absurd (text.inj heq) (childKey_ne tag).2
    · exact fun h => .inl (.inr ⟨rfl, h⟩)
  single c hc := by
    have htag : c.tag ∈ tags := (htags _).2 (named_ne_nil_iff.1 (by rw [hc]; exact cons_ne_nil _ _))
    refine mem_entries_iff.2 (.inr ⟨c.tag, htag, by rw [childKey_tag], ?_⟩)
    rw [hc]
    rfl
  several c hc := by
    have htag : c.tag ∈ tags := (htags _).2 (named_ne_nil_iff.1 (ne_nil_of_length_pos (by omega)))
    refine mem_entries_iff.2 (.inr ⟨c.tag, htag, by rw [childKey_tag], ?_⟩)
    exact groupValue_of_two_le (by rwa [length_map])
  only k v hmem := by
    rcases mem_entries_iff.1 hmem with hmem | ⟨tag, htag, rfl, -⟩
    · rcases mem_own_iff.1 hmem with h | h
      · exact .inl h.1
      · exact .inr (.inl h.1)
    · obtain ⟨c, hc, rfl⟩ := mem_map.1 ((htags tag).1 htag)
      exact .inr (.inr ⟨c, hc, by rw [childKey_tag]⟩)

theorem exists_normal (hmark : ∀ c ∈ e.children, Char.ofNat 96 ∉ c.tag.toList) :
    ∃ entries, e.value = .map entries ∧ Normal e entries := by
  obtain ⟨tags, htags, hval, hkeyed⟩ := exists_entries hmark
  exact ⟨_, hval, normal_entries htags hkeyed⟩

end Normal

/-! ## Ways to elements -/

/-- No name in an element has a grave accent or a double quote, and the positions of children can be read. -/
inductive Element.Plain : Element → Prop
  | intro {e : Element} (hmark : Char.ofNat 96 ∉ e.tag.toList) (hquote : '"' ∉ e.tag.toList)
      (hlen : e.children.length ≤ Nat.pow 10 maxDigits) (hkids : ∀ c ∈ e.children, Plain c) : Plain e

/-- The parts of a path from an element to a child: its key, and its position if others have its name. -/
def partsTo (before : List Element) (child : Element) (after : List Element) : List String :=
  if (named child.tag (before ++ after)).isEmpty then [child.key]
  else [child.key, toString (named child.tag before).length]

inductive Within : Element → List String → Element → Prop
  | here {e : Element} : Within e [] e
  | down {e child target : Element} {before after : List Element} {path : List String}
      (h : e.children = before ++ child :: after) (hrest : Within child path target) :
      Within e (partsTo before child after ++ path) target

def Element.document (root : Element) : Value := .map [(.text root.tag, root.value)]

theorem read_eq (s : String) : read s = (Element.read s).map Element.document := rfl

section Ways

variable {e root child target : Element} {before after : List Element} {path : List String}

theorem Element.Plain.mark_not_mem (h : e.Plain) : Char.ofNat 96 ∉ e.tag.toList := by
  cases h with
  | intro hmark => exact hmark

theorem Element.Plain.exists_normal (h : e.Plain) : ∃ entries, e.value = .map entries ∧ Normal e entries := by
  cases h with
  | intro hmark hquote hlen hkids => exact Xml.exists_normal fun c hc => (hkids c hc).mark_not_mem

theorem follow_partsTo (hplain : e.Plain) (h : e.children = before ++ child :: after) :
    follow e.value (partsTo before child after) = .ok child.value := by
  obtain ⟨entries, hval, hnormal⟩ := hplain.exists_normal
  have hnamed : named child.tag e.children = named child.tag before ++ child :: named child.tag after := by
    rw [h, named_append, named_cons_self]
  rw [hval, partsTo, named_append]
  -- A child that is alone with its name is the entry itself; otherwise the entry is a list, and the child an item of it.
  split_ifs with halone
  · obtain ⟨hbefore, hafter⟩ := append_eq_nil_iff.1 (isEmpty_iff.1 halone)
    rw [hbefore, hafter] at hnamed
    rw [follow_of_step (step_of_mem hnormal.keyed (hnormal.single child hnamed))]
    rfl
  · have hothers : 0 < (named child.tag before ++ named child.tag after).length :=
      length_pos_of_ne_nil (mt isEmpty_iff.2 halone)
    have hlen : (named child.tag e.children).length =
        (named child.tag before).length + ((named child.tag after).length + 1) := by
      rw [hnamed, length_append, length_cons]
    rw [length_append] at hothers
    have hitem : ((named child.tag e.children).map value)[(named child.tag before).length]? =
        some child.value := by
      rw [hnamed, map_append, map_cons, ← length_map (f := value),
        List.getElem?_append_right (Nat.le_refl _), Nat.sub_self, List.getElem?_cons_zero]
    have hposition : (named child.tag before).length < Nat.pow 10 maxDigits := by
      cases hplain with
      | intro hmark hquote hmost hkids =>
        have hlt : (named child.tag before).length < (named child.tag e.children).length := by omega
        exact Nat.lt_of_lt_of_le hlt (Nat.le_trans (length_filter_le _ _) hmost)
    rw [follow_of_step (step_of_mem hnormal.keyed (hnormal.several child (by omega))),
      follow_of_step (step_of_spells (spells_toString hposition) hitem)]
    rfl

theorem Element.Plain.of_children (hplain : e.Plain) (h : e.children = before ++ child :: after) : child.Plain := by
  cases hplain with
  | intro hmark hquote hlen hkids => exact hkids child (by simp [h])

theorem follow_within (hplain : e.Plain) (h : Within e path target) :
    target.Plain ∧ follow e.value path = .ok target.value := by
  induction h with
  | here => exact ⟨hplain, rfl⟩
  | down hkids hrest ih =>
    obtain ⟨htarget, hfollow⟩ := ih (hplain.of_children hkids)
    refine ⟨htarget, foldlM_append.trans ?_⟩
    rw [← follow, follow_partsTo hplain hkids]
    exact hfollow

theorem quote_not_mem_key (h : '"' ∉ e.tag.toList) : '"' ∉ e.key.toList := by
  rw [key]
  split_ifs
  · simpa using h
  · exact h

theorem quote_not_mem_within (hplain : e.Plain) (h : Within e path target) : ∀ part ∈ path, '"' ∉ part.toList := by
  induction h with
  | here => exact fun _ hpart => absurd hpart not_mem_nil
  | @down e child target before after path hkids hrest ih =>
    have hchild := hplain.of_children hkids
    refine forall_mem_append.2 ⟨?_, ih hchild⟩
    have hkey : '"' ∉ child.key.toList := by
      cases hchild with
      | intro hmark hquote => exact quote_not_mem_key hquote
    rw [partsTo]
    split_ifs
    · exact forall_mem_singleton.2 hkey
    · exact forall_mem_cons.2 ⟨hkey, forall_mem_singleton.2 (not_mem_toString (by decide) _)⟩

end Ways

/-- The name of the root and the parts down to an element lead to its value, also if they are written in one path. And
that value is the mapping of the normal entries of the element. -/
theorem follow_document {root e : Element} {path : List String} (hroot : root.Plain) (h : Within root path e) :
    follow root.document (root.tag :: path) = .ok e.value ∧
    readPath (dotted (root.tag :: path)) = .ok (root.tag :: path) ∧
    ∃ entries, e.value = .map entries ∧ Normal e entries := by
  obtain ⟨hplain, hfollow⟩ := follow_within hroot h
  refine ⟨?_, readPath_dotted (cons_ne_nil _ _) ?_, hplain.exists_normal⟩
  · rw [Element.document, follow_of_step (step_of_mem (Value.keyed_singleton _ _) (mem_singleton_self _))]
    exact hfollow
  · cases hroot with
    | intro hmark hquote hlen hkids =>
      exact forall_mem_cons.2 ⟨hquote, quote_not_mem_within (.intro hmark hquote hlen hkids) h⟩

def inner : Element := .node "attributes" [] "" []

def outer : Element := .node "b" [("id", "1")] "" [inner]

/-- A child with the name of the other key that is in use, and two children of one name. -/
def sample : Element := .node "a" [] "" [.node "value" [] " x " [], .node "b" [] "" [], outer]

theorem follow_document_sample : sample.Plain ∧ Within sample ["b", "1", "`attributes`"] inner ∧
    follow sample.document ["a", "b", "1", "`attributes`"] = .ok inner.value := by
  have hthree : 3 ≤ Nat.pow 10 maxDigits := Nat.le_trans (by decide : 3 ≤ maxDigits) (lt_pow_ten maxDigits).le
  have hleaf : ∀ tag text, Char.ofNat 96 ∉ tag.toList → '"' ∉ tag.toList → (Element.node tag [] text []).Plain :=
    fun _ _ hmark hquote => .intro hmark hquote (Nat.zero_le _) fun _ hc => absurd hc not_mem_nil
  have houter : outer.Plain := .intro (by decide) (by decide) (Nat.le_trans (by decide) hthree)
    (forall_mem_singleton.2 (hleaf _ _ (by decide) (by decide)))
  have hsample : sample.Plain := .intro (by decide) (by decide) hthree
    (forall_mem_cons.2 ⟨hleaf _ _ (by decide) (by decide),
      forall_mem_cons.2 ⟨hleaf _ _ (by decide) (by decide), forall_mem_singleton.2 houter⟩⟩)
  have hwithin : Within sample (partsTo [.node "value" [] " x " [], .node "b" [] "" []] outer [] ++
      (partsTo [] inner [] ++ [])) inner := .down rfl (.down rfl .here)
  exact ⟨hsample, hwithin, (follow_document hsample hwithin).1⟩

end Transclude.Xml
