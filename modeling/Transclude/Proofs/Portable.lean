import Mathlib.Data.List.Forall2
import Transclude.Proofs.Acceptance
import Transclude.Proofs.Elements
import Transclude.Proofs.Literals

/-!
# Structured options

A list or a mapping that is an option is carried as JSON. It comes back as it was written exactly if it is `Portable`
(`structured_option_survives`): what `Json.read` reads is always so (`portable_of_read`), and what `Json.write` writes of
such values is read back (`exists_written`).
-/

namespace Transclude

open List Number Text

variable {e : Value × Value} {s : String}

/-- Whether a value keeps its form in JSON: its keys are texts, each of them once, and its scalars those of JSON. -/
inductive Value.Portable : Value → Prop
  | null : Portable .null
  | bool (b : Bool) : Portable (.bool b)
  | int {n : Int} (h : decimalLength n.natAbs ≤ maxDigits) : Portable (.int n)
  | float {x : Binary64} (h : x.Standard) : Portable (.float x)
  | text (s : String) : Portable (.text s)
  | list {items : List Value} (h : ∀ v ∈ items, Portable v) : Portable (.list items)
  | map {entries : List (Value × Value)} (hkeyed : Keyed entries) (h : ∀ e ∈ entries, Portable e.2) :
      Portable (.map entries)

namespace Json

/-! ## What is read -/

section Reading

variable {cs rest : List Char} {v : Value} {entries : List (Value × Value)} {k : String}

theorem portable_readNumber (h : readNumber cs = .ok (v, rest)) : v.Portable := by
  unfold readNumber at h
  split at h
  split at h
  · cases h
  · rename_i negative _ _ _ whole _ _
    dsimp only at h
    split at h
    · cases h
      exact .float (standard_ofDecimal _ _ _)
    · split at h
      · split at h
        · cases h
        · rename_i hlong
          cases h
          have hlt := (digitsValue_lt whole).trans_le (Nat.pow_le_pow_right (by decide) (Nat.not_lt.1 hlong))
          have hlen := (Nat.length_toDigits_le_iff (by decide) (by decide)).2 hlt
          refine .int ?_
          cases negative
          · exact hlen
          · rw [if_pos rfl, Int.natAbs_neg]
            exact hlen
      · cases h
        exact .float (standard_ofDecimal _ _ _)

theorem portable_readWord (h : readWord cs = .ok (v, rest)) : v.Portable := by
  rw [readWord] at h
  split at h
  · rename_i w u hfind
    cases h
    have hmem := mem_of_find?_eq_some hfind
    simp only [words, mem_cons, not_mem_nil, Prod.mk.injEq, or_false] at hmem
    rcases hmem with h | h | h | h | h | h <;> obtain ⟨-, rfl⟩ := h
    exacts [.null, .bool _, .bool _, .float .nan, .float (.infinite _), .float (.infinite _)]
  · exact portable_readNumber h

theorem map_fst_put (htexts : ∀ e ∈ entries, ∃ k, e.1 = .text k) (hk : .text k ∈ entries.map Prod.fst) (v : Value) :
    (Value.put entries (.text k) v).map Prod.fst = entries.map Prod.fst := by
  induction entries with
  | nil => cases hk
  | cons e entries ih =>
    obtain ⟨key, w⟩ := e
    obtain ⟨⟨a, ha⟩, hrest⟩ := forall_mem_cons.1 htexts
    obtain rfl : key = .text a := ha
    rw [Value.put]
    split_ifs with hsame
    · rfl
    · rw [map_cons, mem_cons, Value.text.injEq] at hk
      have hne : k ≠ a := fun h => hsame (beq_iff_eq.2 h.symm)
      rw [map_cons, map_cons, ih hrest (hk.resolve_left hne)]

theorem keyed_nil : Value.Keyed [] := ⟨fun _ he => absurd he not_mem_nil, nodup_nil⟩

theorem keyed_put (h : Value.Keyed entries) (k : String) (v : Value) : Value.Keyed (Value.put entries (.text k) v) := by
  by_cases hk : .text k ∈ entries.map Prod.fst
  · have hmap := map_fst_put h.texts hk v
    refine ⟨fun e he => ?_, hmap ▸ h.nodup⟩
    obtain ⟨e', he', heq⟩ := mem_map.1 (hmap ▸ mem_map_of_mem (f := Prod.fst) he)
    exact heq ▸ h.texts e' he'
  · rw [Xml.put_of_not_mem h.texts v hk]
    refine ⟨?_, ?_⟩
    · exact forall_mem_append.2 ⟨h.texts, by simp⟩
    · rw [map_append]
      exact nodup_append.2 ⟨h.nodup, nodup_singleton _, by
        rintro a ha b hb rfl
        obtain rfl := mem_singleton.1 hb
        exact hk ha⟩

theorem of_mem_put {key : Value} (h : e ∈ Value.put entries key v) : e ∈ entries ∨ e.2 = v := by
  induction entries with
  | nil =>
    obtain rfl := mem_singleton.1 h
    exact .inr rfl
  | cons first entries ih =>
    rw [Value.put] at h
    split_ifs at h
    · rcases mem_cons.1 h with rfl | h
      · exact .inr rfl
      · exact .inl (mem_cons_of_mem _ h)
    · rcases mem_cons.1 h with rfl | h
      · exact .inl mem_cons_self
      · exact (ih h).imp_left (mem_cons_of_mem _)

theorem portable_readAll (fuel : Nat) : (∀ cs v rest, readValue cs fuel = .ok (v, rest) → v.Portable) ∧
    (∀ items cs v rest, (∀ i ∈ items, Value.Portable i) → readItems items cs fuel = .ok (v, rest) → v.Portable) ∧
    (∀ entries cs v rest, Value.Keyed entries → (∀ e ∈ entries, Value.Portable e.2) →
      readEntries entries cs fuel = .ok (v, rest) → v.Portable) := by
  induction fuel with
  | zero =>
    refine ⟨fun cs v rest h => ?_, fun items cs v rest _ h => ?_, fun entries cs v rest _ _ h => ?_⟩
    · cases h
    · cases h
    · cases h
  | succ fuel ih =>
    obtain ⟨hval, hitems, hents⟩ := ih
    refine ⟨fun cs v rest h => ?_, fun items cs v rest hread h => ?_, fun entries cs v rest hkeyed hread h => ?_⟩
    · rw [readValue.eq_def] at h
      dsimp only at h
      split at h
      · cases h
      · split at h
        · cases h
        · cases h
          exact .text _
      · split at h
        · cases h
          exact .list (by simp)
        · exact hitems _ _ _ _ (by simp) h
      · split at h
        · cases h
          exact .map keyed_nil (by simp)
        · exact hents _ _ _ _ keyed_nil (by simp) h
      · exact portable_readWord h
    · rw [readItems] at h
      split at h
      · cases h
      · rename_i u more hu
        have hall : ∀ i ∈ u :: items, Value.Portable i := forall_mem_cons.2 ⟨hval _ _ _ hu, hread⟩
        split at h
        · cases h
          exact .list fun i hi => hall i (mem_reverse.1 hi)
        · exact hitems _ _ _ _ hall h
        · cases h
    · rw [readEntries.eq_def] at h
      dsimp only at h
      split at h
      · split at h
        · cases h
        · split at h
          · split at h
            · cases h
            · rename_i key _ _ _ _ _ _ u more hu
              have hall : ∀ e ∈ Value.put entries (.text key) u, Value.Portable e.2 := fun e he =>
                (of_mem_put he).elim (hread e) fun heq => heq ▸ hval _ _ _ hu
              split at h
              · cases h
                exact .map (keyed_put hkeyed key u) hall
              · exact hents _ _ _ _ (keyed_put hkeyed key u) hall h
              · cases h
          · cases h
      · cases h

theorem portable_of_read (h : read s = .ok v) : v.Portable := by
  have hchars := Except.of_mapError_eq_ok h
  rw [readChars] at hchars
  split at hchars
  · cases hchars
  · split at hchars
    · cases hchars
    · rename_i u rest hu
      split at hchars
      · cases hchars
        exact (portable_readAll _).1 _ _ _ hu
      · cases hchars

end Reading

/-! ## What is written -/

/-- Whether a text is read as a value, whatever comes after it; it begins with neither a space nor a closing bracket. -/
structure Carries (text : List Char) (v : Value) : Prop where
  first : ∃ c cs, text = c :: cs ∧ isSpace c = false ∧ c ≠ ']' ∧ c ≠ '\x7d' ∧ c.toNat < 0x80
  reads : ∀ {rest fuel}, Ends rest → text.length ≤ fuel → readValue (text ++ rest) fuel = .ok (v, rest)

section Writing

variable {text rest cs : List Char} {v : Value} {items : List Value} {texts : List (List Char)} {entries : List
  (Value × Value)} {c : Char} {fuel : Nat}

theorem skipSpace_cons (h : isSpace c = false) (cs : List Char) : skipSpace (c :: cs) = c :: cs := by
  rw [skipSpace, dropWhile_cons, h, if_neg Bool.false_ne_true]

theorem Carries.skipSpace_append (h : Carries text v) (rest : List Char) : skipSpace (text ++ rest) = text ++ rest := by
  obtain ⟨c, cs, rfl, hc, -⟩ := h.first
  exact skipSpace_cons hc _

theorem isDigit_of_wholeDigits? {ds : List Char} (h : wholeDigits? cs = some (ds, rest)) :
    ∃ c cs', cs = c :: cs' ∧ c.isDigit = true := by
  rw [wholeDigits?.eq_def] at h
  split at h
  · exact ⟨'0', _, rfl, rfl⟩
  · dsimp only [spanDigits] at h
    split_ifs at h with hempty
    cases cs with
    | nil => exact absurd rfl hempty
    | cons c cs =>
      refine ⟨c, cs, rfl, ?_⟩
      by_contra hc
      rw [takeWhile_cons, if_neg hc] at hempty
      exact hempty rfl

theorem exists_digit_of_readNumber (h : readNumber cs = .ok (v, rest)) :
    ∃ s c cs', cs = signed s (c :: cs') ∧ c.isDigit = true := by
  unfold readNumber at h
  split at h
  rename_i negative body hsign
  split at h
  · cases h
  · rename_i hwhole
    obtain ⟨c, cs', rfl, hc⟩ := isDigit_of_wholeDigits? hwhole
    refine ⟨negative, c, cs', ?_, hc⟩
    split at hsign <;> cases hsign <;> rfl

theorem readValue_word (hquote : c ≠ '"') (hbracket : c ≠ '[') (hbrace : c ≠ '\x7b') (cs : List Char) (fuel : Nat) : readValue (c :: cs) (fuel + 1) = readWord (c :: cs) := by
  rw [readValue]
  · exact cons_ne_nil _ _
  · exact fun _ h => hquote (List.cons.inj h).1
  · exact fun _ h => hbracket (List.cons.inj h).1
  · exact fun _ h => hbrace (List.cons.inj h).1

theorem length_le_flatMap (cs : List Char) : cs.length ≤ (cs.flatMap writeChar).length := by
  induction cs with
  | nil => exact Nat.zero_le _
  | cons c cs ih =>
    have hne : writeChar c ≠ [] := by
      rw [writeChar]
      split_ifs <;> exact cons_ne_nil _ _
    have hpos := length_pos_iff.2 hne
    rw [flatMap_cons, length_append, length_cons]
    omega

theorem readString_quoted (s : String) (rest : List Char) {start : Nat} (hstart : start =
    ('"' :: (s.toList.flatMap writeChar ++ '"' :: rest)).length) :
    readString start [] (s.toList.flatMap writeChar ++ '"' :: rest) start = .ok (s, rest) := by
  have hfuel : s.toList.length < start := by
    have := length_le_flatMap s.toList
    rw [hstart, length_cons, length_append]
    omega
  rw [readString_written _ _ _ _ hfuel, reverse_nil, nil_append, String.ofList_toList]

theorem carries_of_step (hspace : isSpace c = false) (hbracket : c ≠ ']') (hbrace : c ≠ '\x7d')
    (hmax : c.toNat < 0x80) (h : ∀ rest fuel, Ends rest → readValue (c :: cs ++ rest) (fuel + 1) = .ok (v, rest)) : Carries (c :: cs) v := by
  refine ⟨⟨c, cs, rfl, hspace, hbracket, hbrace, hmax⟩, fun {rest fuel} hrest hfuel => ?_⟩
  obtain ⟨fuel, rfl⟩ := Nat.exists_eq_add_one.2 (Nat.lt_of_lt_of_le (Nat.succ_pos _) hfuel)
  exact h rest fuel hrest

theorem carries_of_readNumber (h : ∀ {rest}, Ends rest → readNumber (text ++ rest) = .ok (v, rest)) :
    Carries text v := by
  obtain ⟨s, c, cs, htext, hc⟩ := exists_digit_of_readNumber (@h [] (by simp [Ends]))
  rw [append_nil] at htext
  have hne : ∀ d : Char, d.isDigit = false → c ≠ d := fun d hd heq => Bool.false_ne_true (hd ▸ heq ▸ hc)
  have hword : ∀ rest, words.find? (fun w => startsWith (text ++ rest) w.1) = none := by
    rw [htext, signed]
    cases s <;> simp [words, startsWith, List.isPrefixOf, (hne _ _).symm]
  have hread : ∀ rest, Ends rest → readWord (text ++ rest) = .ok (v, rest) := by
    intro rest hrest
    rw [readWord, hword, h hrest]
  subst htext
  cases s with
  | false =>
    have hmax : c.toNat ≤ 57 := (Char.isDigit_iff_toNat.1 hc).2
    refine carries_of_step (by simp [isSpace, hne _]) (hne _ rfl) (hne _ rfl) (by omega) fun rest fuel hrest => ?_
    rw [cons_append, readValue_word (hne _ rfl) (hne _ rfl) (hne _ rfl)]
    exact hread rest hrest
  | true =>
    refine carries_of_step rfl (by decide) (by decide) (by decide) fun rest fuel hrest => ?_
    exact hread rest hrest

theorem words_eq : words = [(['n', 'u', 'l', 'l'], .null), (['t', 'r', 'u', 'e'], .bool true),
    (['f', 'a', 'l', 's', 'e'], .bool false), (['N', 'a', 'N'], .float (.nan false)),
    (['I', 'n', 'f', 'i', 'n', 'i', 't', 'y'], .float (.infinite false)),
    (['-', 'I', 'n', 'f', 'i', 'n', 'i', 't', 'y'], .float (.infinite true))] := by
  simp [words]

theorem carries_of_mem_words {w : List Char} (h : (w, v) ∈ words) : Carries w v := by
  rw [words_eq] at h
  simp only [mem_cons, Prod.mk.injEq, not_mem_nil, or_false] at h
  rcases h with ⟨rfl, rfl⟩ | ⟨rfl, rfl⟩ | ⟨rfl, rfl⟩ | ⟨rfl, rfl⟩ | ⟨rfl, rfl⟩ | ⟨rfl, rfl⟩
  all_goals
    refine carries_of_step rfl (by decide) (by decide) (by decide) fun rest fuel _ => ?_
    rw [cons_append, readValue_word (by decide) (by decide) (by decide), readWord, words_eq]
    rfl

theorem carries_text (s : String) : Carries (writeString s).toList (.text s) := by
  rw [writeString, String.toList_ofList, cons_append]
  refine carries_of_step rfl (by decide) (by decide) (by decide) fun rest fuel _ => ?_
  rw [cons_append, append_assoc, singleton_append, readValue, readString_quoted s rest rfl]

theorem carries_bool (b : Bool) : Carries (if b then "true" else "false").toList (.bool b) := by
  cases b <;> exact carries_of_mem_words (by simp [words])

theorem carries_float {x : Binary64} (h : x.Standard) : Carries (writeFloat x).toList (.float x) := by
  cases h with
  | nan => exact carries_of_mem_words (by simp [words, writeFloat])
  | infinite s => cases s <;> exact carries_of_mem_words (by simp [words, writeFloat])
  | finite s h => exact carries_of_readNumber (readNumber_float s h)

/-! ## Lists and mappings -/

theorem ends_cons (h : c = ',' ∨ c = ']' ∨ c = '\x7d') (cs : List Char) : Ends (c :: cs) := by
  intro d hd
  obtain rfl : c = d := Option.some.inj hd
  exact h

def joined (texts : List (List Char)) : List Char := [',', ' '].intercalate texts

theorem joined_cons (c : Char) (cs : List Char) (texts : List (List Char)) (rest : List Char) :
    ∃ more, joined ((c :: cs) :: texts) ++ rest = c :: more := by
  cases texts with
  | nil => exact ⟨_, by rw [joined, intercalate_singleton, cons_append]⟩
  | cons next texts => exact ⟨_, by rw [joined, intercalate_cons_cons, append_assoc, append_assoc, cons_append]⟩

theorem joined_cons_cons (text next : List Char) (texts : List (List Char)) (rest : List Char) :
    joined (text :: next :: texts) ++ rest = text ++ ',' :: ' ' :: (joined (next :: texts) ++ rest) := by
  rw [joined, intercalate_cons_cons, append_assoc, append_assoc]
  rfl

theorem length_joined_cons (text next : List Char) (texts : List (List Char)) :
    (joined (text :: next :: texts)).length = text.length + (joined (next :: texts)).length + 2 := by
  have h := congrArg List.length (joined_cons_cons text next texts [])
  rw [append_nil, append_nil, length_append] at h
  omega

theorem skipSpace_joined (h : isSpace c = false) (texts : List (List Char)) (rest : List Char) : skipSpace (joined ((c :: cs) :: texts) ++ rest) = joined ((c :: cs) :: texts) ++ rest := by
  obtain ⟨more, hmore⟩ := joined_cons c cs texts rest
  rw [hmore, skipSpace_cons h]

theorem readItems_last (h : readValue cs fuel = .ok (v, ']' :: rest)) :
    readItems items cs (fuel + 1) = .ok (.list (items.reverse ++ [v]), rest) := by
  rw [readItems, h, ← reverse_cons]
  rfl

theorem readItems_next {more : List Char} (h : readValue cs fuel = .ok (v, ',' :: ' ' :: more))
    (hmore : skipSpace more = more) : readItems items cs (fuel + 1) = readItems (v :: items) more fuel := by
  rw [readItems, h]
  change readItems (v :: items) (skipSpace more) fuel = _
  rw [hmore]

theorem readItems_written (h : List.Forall₂ Carries texts items) (hne : texts ≠ []) (before : List Value)
    (rest : List Char) (hfuel : (joined texts).length < fuel) :
    readItems before (joined texts ++ ']' :: rest) fuel = .ok (.list (before.reverse ++ items), rest) := by
  induction h generalizing before fuel with
  | nil => exact absurd rfl hne
  | @cons text v texts items hv hrest ih =>
    obtain ⟨fuel, rfl⟩ := Nat.exists_eq_add_one.2 (Nat.zero_lt_of_lt hfuel)
    cases hrest with
    | nil =>
      rw [joined, intercalate_singleton] at hfuel ⊢
      exact readItems_last (hv.reads (ends_cons (by decide) _) (Nat.lt_succ_iff.1 hfuel))
    | @cons next w texts items hw hrest =>
      rw [length_joined_cons] at hfuel
      obtain ⟨c, cs, rfl, hc, -⟩ := hw.first
      have hread := hv.reads (ends_cons (.inl rfl) (' ' :: (joined ((c :: cs) :: texts) ++ ']' :: rest)))
        (show text.length ≤ fuel by omega)
      rw [joined_cons_cons, readItems_next hread (skipSpace_joined hc texts _), ih (cons_ne_nil _ _) _ (by omega),
        reverse_cons, append_assoc, singleton_append]

theorem carries_list (h : List.Forall₂ Carries texts items) :
    Carries ('[' :: (joined texts ++ [']'])) (.list items) := by
  refine ⟨⟨'[', _, rfl, by decide⟩, fun {rest fuel} _ hfuel => ?_⟩
  rw [length_cons, length_append, length_singleton] at hfuel
  obtain ⟨fuel, rfl⟩ := Nat.exists_eq_add_one.2 (Nat.lt_of_lt_of_le (Nat.succ_pos _) hfuel)
  rw [cons_append, append_assoc, singleton_append]
  cases h with
  | nil => rfl
  | @cons text v texts items hv hrest =>
    obtain ⟨c, cs, rfl, hspace, hc, -⟩ := hv.first
    have hread := readItems_written (.cons hv hrest) (cons_ne_nil _ _) [] rest (show _ < fuel by omega)
    obtain ⟨more, hmore⟩ := joined_cons c cs texts (']' :: rest)
    rw [readValue, skipSpace_joined hspace]
    rw [hmore] at hread ⊢
    split
    · rename_i hclosed
      exact absurd (List.cons.inj hclosed).1 hc
    · exact hread

def CarriesEntry (text : List Char) (e : Value × Value) : Prop :=
  ∃ k cs, e.1 = .text k ∧ text = (writeString k).toList ++ ':' :: ' ' :: cs ∧ Carries cs e.2

theorem CarriesEntry.first (h : CarriesEntry text e) : ∃ cs, text = '"' :: cs := by
  obtain ⟨k, cs, -, rfl, -⟩ := h
  rw [writeString, String.toList_ofList]
  exact ⟨_, rfl⟩

section Entry

variable {entries : List (Value × Value)} {k : String} {cs more : List Char} {fuel : Nat}

theorem readEntries_last (hcs : skipSpace cs = cs) (h : readValue cs fuel = .ok (v, '\x7d' :: rest)) :
    readEntries entries ((writeString k).toList ++ ':' :: ' ' :: cs) (fuel + 1) =
      .ok (.map (Value.put entries (.text k) v), rest) := by
  rw [writeString, String.toList_ofList, cons_append, cons_append, append_assoc, singleton_append,
    readEntries, readString_quoted k _ rfl]
  have hblank : skipSpace (' ' :: cs) = cs := hcs
  simp only [skipSpace_cons (c := ':') rfl, hblank, h, skipSpace_cons (c := '\x7d') rfl]

theorem readEntries_next (hcs : skipSpace cs = cs) (h : readValue cs fuel = .ok (v, ',' :: ' ' :: more))
    (hmore : skipSpace more = more) :
    readEntries entries ((writeString k).toList ++ ':' :: ' ' :: cs) (fuel + 1) =
      readEntries (Value.put entries (.text k) v) more fuel := by
  rw [writeString, String.toList_ofList, cons_append, cons_append, append_assoc, singleton_append,
    readEntries, readString_quoted k _ rfl]
  have hblank : skipSpace (' ' :: cs) = cs := hcs
  have hblank' : skipSpace (' ' :: more) = more := hmore
  simp only [skipSpace_cons (c := ':') rfl, hblank, h, skipSpace_cons (c := ',') rfl, hblank']

end Entry

theorem readEntries_written (h : List.Forall₂ CarriesEntry texts entries) (hne : texts ≠ [])
    (before : List (Value × Value)) (hkeyed : Value.Keyed (before ++ entries)) (rest : List Char)
    (hfuel : (joined texts).length < fuel) :
    readEntries before (joined texts ++ '\x7d' :: rest) fuel = .ok (.map (before ++ entries), rest) := by
  induction h generalizing before fuel with
  | nil => exact absurd rfl hne
  | @cons text e texts entries he hrest ih =>
    obtain ⟨fuel, rfl⟩ := Nat.exists_eq_add_one.2 (Nat.zero_lt_of_lt hfuel)
    obtain ⟨key, v⟩ := e
    obtain ⟨k, cs, hkey, rfl, hv⟩ := he
    obtain rfl : key = .text k := hkey
    have hput : Value.put before (.text k) v = before ++ [(.text k, v)] := by
      have hnodup := hkeyed.nodup
      rw [map_append] at hnodup
      exact Xml.put_of_not_mem (fun e he => hkeyed.texts e (mem_append_left _ he)) v fun hmem =>
        disjoint_of_nodup_append hnodup hmem mem_cons_self
    cases hrest with
    | nil =>
      rw [joined, intercalate_singleton] at hfuel ⊢
      rw [length_append, length_cons, length_cons] at hfuel
      rw [append_assoc, cons_append, cons_append, readEntries_last (hv.skipSpace_append _)
        (hv.reads (ends_cons (by decide) _) (by omega)), hput]
    | @cons next e' texts entries he' hrest =>
      rw [length_joined_cons, length_append, length_cons, length_cons] at hfuel
      have hskip : skipSpace (joined (next :: texts) ++ '\x7d' :: rest) = joined (next :: texts) ++ '\x7d' :: rest := by
        obtain ⟨cs', rfl⟩ := he'.first
        exact skipSpace_joined rfl texts _
      have hread := hv.reads (ends_cons (.inl rfl) (' ' :: (joined (next :: texts) ++ '\x7d' :: rest)))
        (show cs.length ≤ fuel by omega)
      rw [append_cons] at hkeyed
      rw [joined_cons_cons, append_assoc, cons_append, cons_append,
        readEntries_next (hv.skipSpace_append _) hread hskip, hput, ih (cons_ne_nil _ _) _ hkeyed (by omega),
        append_assoc, singleton_append]

theorem carries_map (h : List.Forall₂ CarriesEntry texts entries) (hkeyed : Value.Keyed entries) :
    Carries ('\x7b' :: (joined texts ++ ['\x7d'])) (.map entries) := by
  refine ⟨⟨'\x7b', _, rfl, by decide⟩, fun {rest fuel} _ hfuel => ?_⟩
  rw [length_cons, length_append, length_singleton] at hfuel
  obtain ⟨fuel, rfl⟩ := Nat.exists_eq_add_one.2 (Nat.lt_of_lt_of_le (Nat.succ_pos _) hfuel)
  rw [cons_append, append_assoc, singleton_append]
  cases h with
  | nil => rfl
  | @cons text e texts entries he hrest =>
    have hread := readEntries_written (.cons he hrest) (cons_ne_nil _ _) [] hkeyed rest (show _ < fuel by omega)
    obtain ⟨cs, rfl⟩ := he.first
    obtain ⟨more, hmore⟩ := joined_cons '"' cs texts ('\x7d' :: rest)
    rw [hmore] at hread ⊢
    exact hread

/-! ## Reading back -/

theorem exists_writeItems (h : ∀ v ∈ items, ∃ text, write v = .ok text ∧ Carries text.toList v) :
    ∃ texts, writeItems items = .ok texts ∧ List.Forall₂ Carries (texts.map String.toList) items := by
  induction items with
  | nil => exact ⟨[], by rw [writeItems], .nil⟩
  | cons v items ih =>
    obtain ⟨⟨text, hwrite, hv⟩, hrest⟩ := forall_mem_cons.1 h
    obtain ⟨texts, hitems, hall⟩ := ih hrest
    refine ⟨text :: texts, ?_, .cons hv hall⟩
    rw [writeItems, hwrite, hitems]
    rfl

theorem exists_writeEntries (htexts : ∀ e ∈ entries, ∃ k, e.1 = .text k)
    (h : ∀ e ∈ entries, ∃ text, write e.2 = .ok text ∧ Carries text.toList e.2) :
    ∃ texts, writeEntries entries = .ok texts ∧ List.Forall₂ CarriesEntry (texts.map String.toList) entries := by
  induction entries with
  | nil => exact ⟨[], by rw [writeEntries], .nil⟩
  | cons e entries ih =>
    obtain ⟨key, v⟩ := e
    obtain ⟨⟨k, hkey⟩, hkeys⟩ := forall_mem_cons.1 htexts
    obtain rfl : key = .text k := hkey
    obtain ⟨⟨text, hwrite, hv⟩, hrest⟩ := forall_mem_cons.1 h
    obtain ⟨texts, hents, hall⟩ := ih hkeys hrest
    refine ⟨(writeString k ++ ": " ++ text) :: texts, ?_, .cons ⟨k, text.toList, rfl, ?_, hv⟩ hall⟩
    · rw [writeEntries, hwrite, hents]
      rfl
    · rw [String.toList_append, String.toList_append, append_assoc]
      rfl

theorem exists_written (h : v.Portable) : ∃ text, write v = .ok text ∧ Carries text.toList v := by
  induction h with
  | null => exact ⟨_, by rw [write], carries_of_mem_words (by simp [words])⟩
  | bool b => exact ⟨_, by rw [write], carries_bool b⟩
  | int h => exact ⟨_, by rw [write], carries_of_readNumber (readNumber_int h)⟩
  | float h => exact ⟨_, by rw [write], carries_float h⟩
  | text s => exact ⟨_, by rw [write], carries_text s⟩
  | list _ ih =>
    obtain ⟨texts, hwrite, hall⟩ := exists_writeItems ih
    refine ⟨"[" ++ ", ".intercalate texts ++ "]", by rw [write, hwrite]; rfl, ?_⟩
    rw [String.toList_append, String.toList_append, String.toList_intercalate]
    exact carries_list hall
  | map hkeyed _ ih =>
    obtain ⟨texts, hwrite, hall⟩ := exists_writeEntries hkeyed.texts ih
    refine ⟨"\x7b" ++ ", ".intercalate texts ++ "\x7d", by rw [write, hwrite]; rfl, ?_⟩
    rw [String.toList_append, String.toList_append, String.toList_intercalate]
    exact carries_map hall hkeyed

theorem read_of_carries (h : Carries s.toList v) : read s = .ok v := by
  obtain ⟨c, cs, hcs, hspace, -, -, hmax⟩ := h.first
  have hval := @h.reads [] (2 * s.toList.length + 2) (fun _ h => by cases h) (by omega)
  rw [append_nil] at hval
  have hmark : s.toList.head?.any (·.toNat == 0xfeff) = false := by
    rw [hcs]
    exact beq_eq_false_iff_ne.2 (by omega)
  rw [read, readChars, hmark, hcs, skipSpace_cons hspace, ← hcs, hval]
  rfl

end Writing

end Json

theorem Compile.portable_filter {options : Options} {view : Table.View} (h : tableView options = .ok view) :
    view.filter.Portable := by
  rw [tableView] at h
  split at h
  · obtain ⟨filter, hfilt, h⟩ := Except.of_bind_eq_ok h
    cases h
    exact Json.portable_of_read (Except.of_mapError_eq_ok hfilt)
  · cases h
    exact .map Json.keyed_nil (by simp)

namespace Directive

def mixedConditions : Value :=
  .map [(.text "price", .float (.finite false 7205759403792794 (-56))), (.text "name", .text "é\n😀"),
    (.text "in", .list [.int (-3), .null, .bool true])]

end Directive

end Transclude
