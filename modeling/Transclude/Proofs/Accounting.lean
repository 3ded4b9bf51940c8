import Mathlib.Data.List.Nodup
import Transclude.Proofs.Numerals
import Transclude.Proofs.Writing

/-!
# What a cache counts

A kept text that is written over is not let go, so that it is still counted. What a cache counts is then what it keeps
and all that was written over while it was kept (`memory_eq_kept_add_displaced`).
-/

namespace Transclude.Cache

open List Disk Path Nat Option

variable {c : Cache} {d d' : Disk} {path text : String} {surplus : Nat} {entries : List (String × Option String)}
  {p : Path} {reply : Reply String}

/-! ## Characters that are kept -/

def charsIn : List (String × Option String) → Nat
  | [] => 0
  | (_, none) :: rest => charsIn rest
  | (_, some text) :: rest => text.length + charsIn rest

def kept (c : Cache) : Nat := charsIn c.entries

def keptOf (c : Cache) (path : String) : Nat :=
  match c.entries.lookup path with
  | some (some text) => text.length
  | _ => 0

theorem charsIn_cons (path : String) (text : Option String) (rest : List (String × Option String)) :
    charsIn ((path, text) :: rest) = (text.map String.length).getD 0 + charsIn rest := by
  cases text with
  | none => exact (Nat.zero_add _).symm
  | some text => rfl

theorem charsIn_append (xs ys : List (String × Option String)) : charsIn (xs ++ ys) = charsIn xs + charsIn ys := by
  induction xs with
  | nil => exact (Nat.zero_add _).symm
  | cons x xs ih => rw [cons_append, charsIn_cons, charsIn_cons, ih, Nat.add_assoc]

theorem charsIn_reverse (xs : List (String × Option String)) : charsIn xs.reverse = charsIn xs := by
  induction xs with
  | nil => rfl
  | cons x xs ih =>
    rw [reverse_cons, charsIn_append, ih, charsIn_cons, charsIn_cons, charsIn, Nat.add_zero, Nat.add_comm]

theorem charsIn_filter_add (hnodup : (entries.map (·.1)).Nodup) (path : String) :
    charsIn (entries.filter (·.1 != path)) + (((entries.lookup path).bind id).map String.length).getD 0 =
      charsIn entries := by
  induction entries with
  | nil => rfl
  | cons x entries ih =>
    obtain ⟨key, text⟩ := x
    rw [map_cons, nodup_cons] at hnodup
    have ih := ih hnodup.2
    rw [lookup_cons, charsIn_cons]
    by_cases hkey : path = key
    · subst hkey
      have hrest : entries.filter (·.1 != path) = entries := by
        refine filter_eq_self.2 fun e he => bne_iff_ne.2 fun h => hnodup.1 ?_
        rw [← h]
        exact mem_map.2 ⟨e, he, rfl⟩
      rw [filter_cons_of_neg (by simp), hrest, beq_self_eq_true, Nat.add_comm]
      rfl
    · rw [filter_cons_of_pos (by simpa using Ne.symm hkey), charsIn_cons, beq_false_of_ne hkey, ← ih]
      exact Nat.add_assoc _ _ _

theorem keptOf_eq (c : Cache) (path : String) :
    c.keptOf path = (((c.entries.lookup path).bind id).map String.length).getD 0 := by
  rw [keptOf]
  rcases c.entries.lookup path with _ | _ | text <;> rfl

/-! ## Letting go -/

theorem map_fst_unload (limit : Int) (needed memory : Nat) (entries : List (String × Option String)) :
    (unload limit needed memory entries).1.map (·.1) = entries.map (·.1) := by
  fun_induction unload limit needed memory entries with
  | case1 => rfl
  | case2 _ _ _ _ _ _ _ _ hrest ih => simpa [hrest] using ih
  | case3 _ _ _ _ _ _ _ hrest ih => simpa [hrest] using ih
  | case4 => rfl

theorem memory_unload {limit : Int} {needed memory : Nat} (h : memory = charsIn entries + surplus) :
    (unload limit needed memory entries).2.1 = charsIn (unload limit needed memory entries).1 + surplus := by
  fun_induction unload limit needed memory entries with
  | case1 => exact h
  | case2 memory path rest _ s rest' memory' events hrest ih =>
    rw [hrest] at ih
    exact ih (by simp only [charsIn] at h; omega)
  | case3 memory path rest _ rest' memory' events hrest ih =>
    rw [hrest] at ih
    exact ih h
  | case4 => exact h

/-- Whether a cache has one entry for each path, and counts so many characters more than it keeps. -/
structure Balanced (c : Cache) (surplus : Nat) : Prop where
  nodup : (c.entries.map (·.1)).Nodup
  memory : c.memory = c.kept + surplus

theorem Balanced.makeRoom (h : c.Balanced surplus) (needed : Nat) : (c.makeRoom needed).1.Balanced surplus where
  nodup := by
    have hpaths : (c.makeRoom needed).1.entries.map (·.1) = c.entries.map (·.1) := by
      rw [Cache.makeRoom, map_reverse, map_fst_unload, ← map_reverse, reverse_reverse]
    rw [hpaths]
    exact h.nodup
  memory := by
    have hmemory : c.memory = charsIn c.entries.reverse + surplus := by
      rw [charsIn_reverse]
      exact h.memory
    rw [kept, Cache.makeRoom, charsIn_reverse]
    exact memory_unload hmemory

theorem nodup_toFront (h : (c.entries.map (·.1)).Nodup) (path text : String) :
    ((c.toFront path text).entries.map (·.1)).Nodup := by
  refine nodup_cons.2 ⟨fun hmem => ?_, h.sublist (filter_sublist.map _)⟩
  obtain ⟨e, he, hpath⟩ := mem_map.1 hmem
  exact bne_iff_ne.1 (mem_filter.1 he).2 hpath

theorem kept_toFront_add (h : (c.entries.map (·.1)).Nodup) (path text : String) :
    (c.toFront path text).kept + c.keptOf path = text.length + c.kept := by
  have hrest := charsIn_filter_add h path
  rw [keptOf_eq, kept, kept, ← hrest, ← Nat.add_assoc]
  rfl

theorem Balanced.toFront (h : c.Balanced surplus) (hl : c.entries.lookup path = some (some text)) :
    (c.toFront path text).Balanced surplus where
  nodup := nodup_toFront h.nodup path text
  memory := by
    have hkept := kept_toFront_add h.nodup path text
    have hof : c.keptOf path = text.length := by rw [keptOf, hl]
    have hmemory : (c.toFront path text).memory = c.memory := rfl
    have := h.memory
    omega

theorem Balanced.take (h : c.Balanced surplus) (path text : String) :
    (c.take path text).1.Balanced (surplus + (c.makeRoom text.length).1.keptOf path) where
  nodup := nodup_toFront (h.makeRoom text.length).nodup path text
  memory := by
    have hroom := h.makeRoom text.length
    have hkept := kept_toFront_add hroom.nodup path text
    have hcount : (c.take path text).1.memory = (c.makeRoom text.length).1.memory + text.length := rfl
    have hfront : (c.take path text).1.kept = ((c.makeRoom text.length).1.toFront path text).kept := rfl
    have := hroom.memory
    omega

theorem keptOf_makeRoom (hl : ∀ text, c.entries.lookup path ≠ some (some text))
    (hnodup : (c.entries.map (·.1)).Nodup) (needed : Nat) : (c.makeRoom needed).1.keptOf path = 0 := by
  rw [keptOf]
  split
  · rename_i text hroom
    obtain ⟨kept, hmem, hkept⟩ := remains_unload (mem_reverse.1 (mem_of_lookup hroom))
    obtain rfl := hkept text rfl
    exact absurd (lookup_eq_some_of_mem hnodup (mem_reverse.1 hmem)) (hl text)
  · rfl

/-! ## Reading and writing -/

theorem Balanced.get_ok (h : c.Balanced surplus) (hg : c.get d path = .ok reply) : reply.cache.Balanced surplus := by
  by_cases hload : ∃ text, c.entries.lookup path = some (some text)
  · obtain ⟨text, hl⟩ := hload
    rw [get, hl] at hg
    cases hg
    exact h.toFront hl
  · have hl := not_exists.1 hload
    rcases get_cases c d path with ⟨text, hl', -⟩ | ⟨_, _, he⟩ | ⟨_, _, _, he⟩ | ⟨_, ⟨_, _, he⟩ | ⟨text, _, he⟩⟩
    · exact absurd hl' (hl text)
    all_goals
      rw [he] at hg
      cases hg
    · exact h
    · have htake := h.take path text
      rwa [keptOf_makeRoom hl h.nodup] at htake

theorem write_cases (c : Cache) (d : Disk) (path text : String) : (∃ crash, c.write d path text = .error crash) ∨
    (∃ errors, c.write d path text = .ok (d, ⟨none, errors, c, []⟩)) ∨
    isAllowed d.folder c.allowed path = true ∧ ∃ d', d.writeText (ofText (c.target d path)).text text = .ok d' ∧
        c.write d path text = .ok (d', ⟨some (c.target d path), [], (c.take (c.target d path) text).1,
          (c.take (c.target d path) text).2⟩) := by
  rw [write]
  split_ifs with hnull hallow
  · exact .inl ⟨.nullInPath, rfl⟩
  · dsimp only
    cases d.writeText (ofText (c.target d path)).text text with
    | error fault => exact .inl ⟨.disk fault, rfl⟩
    | ok d' => exact .inr (.inr ⟨hallow, d', rfl, rfl⟩)
  · exact .inr (.inl ⟨[(Refusal.forbidden (shorten d.folder path)).status], rfl⟩)

/-! ## Actions -/

inductive Action where
  | ask (request : Request)
  | write (path text : String)

abbrev State := Cache × Disk

def Action.after (s : State) : Action → State
  | .ask request => (request.after s.2 s.1, s.2)
  | .write path text =>
    match s.1.write s.2 path text with
    | .ok (d, reply) => (reply.cache, d)
    | .error _ => s

def Action.displaces (s : State) : Action → Nat
  | .ask _ => 0
  | .write path text =>
    match s.1.write s.2 path text with
    | .ok (_, reply) => (reply.value.map (s.1.makeRoom text.length).1.keptOf).getD 0
    | .error _ => 0

def displaced (s : State) : List Action → Nat
  | [] => 0
  | a :: rest => a.displaces s + displaced (a.after s) rest

variable {s : State}

theorem Action.after_cases (s : State) (a : Action) : (a.after s = s ∧ a.displaces s = 0) ∨
    (∃ path reply, s.1.get s.2 path = .ok reply ∧ a.after s = (reply.cache, s.2) ∧ a.displaces s = 0) ∨
    (∃ path text d, a = .write path text ∧ isAllowed s.2.folder s.1.allowed path = true ∧
      s.2.writeText (ofText (s.1.target s.2 path)).text text = .ok d ∧
      a.after s = ((s.1.take (s.1.target s.2 path) text).1, d) ∧
      a.displaces s = (s.1.makeRoom text.length).1.keptOf (s.1.target s.2 path)) := by
  cases a with
  | ask request =>
    cases request with
    | read path =>
      cases hg : s.1.get s.2 path with
      | error crash => exact .inl ⟨by rw [after, Request.after, hg], rfl⟩
      | ok reply => exact .inr (.inl ⟨path, reply, hg, by rw [after, Request.after, hg], rfl⟩)
    | validate _ => exact .inl ⟨rfl, rfl⟩
    | find _ => exact .inl ⟨rfl, rfl⟩
    | presence _ => exact .inl ⟨rfl, rfl⟩
  | write path text =>
    rw [after, displaces]
    rcases write_cases s.1 s.2 path text with ⟨_, he⟩ | ⟨_, he⟩ | ⟨hmay, d, hwritten, he⟩
    all_goals rw [he]
    · exact .inl ⟨rfl, rfl⟩
    · exact .inl ⟨rfl, rfl⟩
    · exact .inr (.inr ⟨path, text, d, rfl, hmay, hwritten, rfl, rfl⟩)

theorem Balanced.after (h : s.1.Balanced surplus) (a : Action) : (a.after s).1.Balanced (surplus + a.displaces s) := by
  rcases a.after_cases s with ⟨hafter, hnone⟩ | ⟨path, reply, hg, hafter, hnone⟩ |
    ⟨path, text, d, -, -, -, hafter, hdisplaces⟩
  · rw [hafter, hnone]
    exact h
  · rw [hafter, hnone]
    exact h.get_ok hg
  · rw [hafter, hdisplaces]
    exact h.take _ text

theorem Balanced.foldl_after (h : s.1.Balanced surplus) (actions : List Action) :
    (actions.foldl Action.after s).1.Balanced (surplus + displaced s actions) := by
  induction actions generalizing s surplus with
  | nil => exact h
  | cons a actions ih =>
    rw [displaced, ← Nat.add_assoc]
    exact ih (h.after a)

/-! ## Free paths -/

def numbered (p : Path) (n : Nat) : Path := p.parent.join { root := "", parts := [s!"{p.stem}.{n}{p.extension}"] }

theorem freePath_succ (d : Disk) (p : Path) (n fuel : Nat) : freePath d p n (fuel + 1) =
    if d.has (numbered p n).text then freePath d p (n + 1) fuel else numbered p n := rfl

theorem has_numbered_of_freePath {n fuel k : Nat} (h : d.has (freePath d p n fuel).text = true) (hk : k < fuel) : d.has (numbered p (n + k)).text = true := by
  induction fuel generalizing n k with
  | zero => exact absurd hk (not_lt_zero _)
  | succ fuel ih =>
    rw [freePath_succ] at h
    split_ifs at h with htaken
    · cases k with
      | zero => exact htaken
      | succ k =>
        rw [Nat.add_comm k 1, ← Nat.add_assoc]
        exact ih h (by omega)
    · exact absurd h htaken

theorem toList_numberedName (stem ext : String) (n : Nat) :
    s!"{stem}.{n}{ext}".toList = stem.toList ++ '.' :: (Nat.repr n).toList ++ ext.toList := by
  simp [toString]

theorem isName_numberedName {stem ext : String} (hstem : '/' ∉ stem.toList) (hext : '/' ∉ ext.toList) (n : Nat) :
    Path.IsName s!"{stem}.{n}{ext}" ∧ s!"{stem}.{n}{ext}" ≠ ".." := by
  obtain ⟨c, cs, hrepr⟩ := exists_cons_of_ne_nil (show (Nat.repr n).toList ≠ [] by simp)
  have hdigit : c.isDigit = true := Number.isDigit_of_mem_toString (i := n) (by simp [hrepr, toString])
  have hmem : c ∈ s!"{stem}.{n}{ext}".toList := by
    rw [toList_numberedName, hrepr]
    simp
  have hne (word : String) (hword : c ∉ word.toList) : s!"{stem}.{n}{ext}" ≠ word := by
    rintro rfl
    exact hword hmem
  have hpoint : c ≠ '.' := by
    rintro rfl
    cases hdigit
  refine ⟨⟨?_, ?_⟩, hne ".." (by simpa using hpoint)⟩
  · rw [moves, Bool.and_eq_true, bne_iff_ne, bne_iff_ne]
    exact ⟨hne "" (by simp), hne "." (by simpa using hpoint)⟩
  · rw [toList_numberedName]
    simp only [mem_append, mem_cons, not_or]
    refine ⟨⟨hstem, by decide, fun hslash => ?_⟩, hext⟩
    cases Number.isDigit_of_mem_toString hslash

theorem not_mem_name (hp : p.Clean) : '/' ∉ p.name.toList := by
  rw [name]
  cases hlast : p.parts.getLast? with
  | none => simp
  | some name => exact (hp.names name (mem_of_getLast? hlast)).2

theorem isName_numbered (hp : p.Clean) (n : Nat) :
    Path.IsName s!"{p.stem}.{n}{p.extension}" ∧ s!"{p.stem}.{n}{p.extension}" ≠ ".." := by
  have hname := not_mem_name hp
  refine isName_numberedName ?_ ?_ n
  · rw [stem]
    split
    · rw [String.toList_ofList]
      exact fun h => hname (mem_of_mem_take h)
    · exact hname
  · rw [extension]
    split
    · rw [String.toList_ofList]
      exact fun h => hname (mem_of_mem_drop h)
    · simp

theorem numbered_parts (p : Path) (n : Nat) :
    (numbered p n).parts = p.parts.dropLast ++ [s!"{p.stem}.{n}{p.extension}"] := rfl

theorem clean_numbered (hp : p.Clean) (n : Nat) : (numbered p n).Clean where
  root := hp.root
  names name hname := by
    rw [numbered_parts, mem_append, mem_singleton] at hname
    rcases hname with hname | rfl
    · exact hp.names name (dropLast_subset _ hname)
    · exact (isName_numbered hp n).1

theorem getLast?_of_locate_numbered (hp : p.Clean) {n : Nat} {place : List String}
    (h : d.locate (numbered p n).text = .ok place) : place.getLast? = some s!"{p.stem}.{n}{p.extension}" := by
  obtain ⟨still, hnames, -⟩ := names_text (clean_numbered hp n)
  rw [locate_eq_ite] at h
  split_ifs at h
  rw [hnames, numbered_parts, ← append_assoc, foldlM_append] at h
  obtain ⟨above, -, h⟩ := Except.of_bind_eq_ok h
  obtain ⟨next, hstep, h⟩ := Except.of_bind_eq_ok h
  cases h
  obtain ⟨hname, hdown⟩ := isName_numbered hp n
  obtain ⟨-, ⟨hup, -⟩ | ⟨-, rfl⟩⟩ := step_cases hname.1 hstep
  · exact absurd hup hdown
  · exact List.getLast?_concat

theorem has_freePath (hp : p.Clean) : d.has (freePath d p 0 (d.entries.length + 1)).text = false := by
  by_contra htaken
  rw [Bool.not_eq_false] at htaken
  have hplaces : ∀ n < d.entries.length + 1, ∃ place ∈ d.keys, place.getLast? = some s!"{p.stem}.{n}{p.extension}" := by
    intro n hn
    have hhas := has_numbered_of_freePath htaken hn
    rw [has, stat?] at hhas
    cases hloc : d.locate (numbered p n).text with
    | error fault => simp [hloc] at hhas
    | ok place =>
      obtain ⟨e, he⟩ := isSome_iff_exists.1 (by simpa [hloc] using hhas)
      have hlast := getLast?_of_locate_numbered hp hloc
      refine ⟨place, mem_keys_of_entry? ?_ he, hlast⟩
      rintro rfl
      cases hlast
  choose! place hmem hlast using hplaces
  -- the places have different names, so that there are more of them than entries
  have hnodup : ((List.range (d.entries.length + 1)).map place).Nodup := by
    refine List.Nodup.map_on (fun m hm n hn heq => ?_) nodup_range
    have hnames := (hlast m (mem_range.1 hm)).symm.trans (heq ▸ hlast n (mem_range.1 hn))
    have hchars := congrArg String.toList (Option.some.inj hnames)
    rw [toList_numberedName, toList_numberedName, append_left_inj, append_right_inj, List.cons.injEq,
      toList_repr, toList_repr] at hchars
    rw [← ofDigitChars_ten_toDigits (n := m), hchars.2, ofDigitChars_ten_toDigits]
  have hsub : (List.range (d.entries.length + 1)).map place ⊆ d.keys := by
    intro q hq
    obtain ⟨n, hn, rfl⟩ := mem_map.1 hq
    exact hmem n (mem_range.1 hn)
  have hlen := hnodup.length_le_of_subset hsub
  rw [length_map, length_range, Disk.keys, length_map] at hlen
  omega

/-! ## Writing without overwriting -/

theorem isFile_of_has (h : d.has path = false) : d.isFile path = false := by
  rw [has, isSome_eq_false_iff, isNone_iff_eq_none] at h
  rw [isFile, h]

theorem isFile_target (h : c.overwrites = false) (path : String) : d.isFile (c.target d path) = false := by
  rw [target, h]
  split_ifs with hfile
  · exact isFile_of_has (has_freePath (clean_ofText path))
  · simpa using hfile

theorem clean_freePath (hp : p.Clean) (n fuel : Nat) : (freePath d p n fuel).Clean := by
  induction fuel generalizing n with
  | zero => exact hp
  | succ fuel ih =>
    rw [freePath_succ]
    split_ifs
    · exact ih (n + 1)
    · exact clean_numbered hp n

theorem text_target (h : (ofText path).text = path) : (ofText (c.target d path)).text = c.target d path := by
  rw [target]
  split_ifs
  · rw [ofText_text (clean_freePath (clean_ofText path) _ _)]
  · exact h

def Backed (c : Cache) (d : Disk) : Prop := ∀ e ∈ c.entries, d.isFile e.1 = true

theorem Backed.isFile_of_validate (h : c.Backed d) (hv : c.validate d path = .ok []) : d.isFile path = true := by
  rw [validate_eq_ite] at hv
  split_ifs at hv with hl
  · obtain ⟨kept, hl⟩ := isSome_iff_exists.1 hl
    exact h _ (mem_of_lookup hl)
  · exact (refusal?_eq_none_iff.1 (objections_eq_nil_iff.1 hv).2).2.1

theorem Backed.take (h : c.Backed d) (hpath : d.isFile path = true) : (c.take path text).1.Backed d := by
  intro e he
  rcases remains_take he with rfl | ⟨kept, hmem, -⟩
  · exact hpath
  · exact h (e.1, kept) hmem

theorem Backed.get_ok (h : c.Backed d) (hg : c.get d path = .ok reply) : reply.cache.Backed d := by
  intro e he
  rcases (Cache.get_ok hg).2 e he with ⟨kept, hmem, -⟩ | ⟨_, rfl, -, -, hv⟩
  · exact h (e.1, kept) hmem
  · exact h.isFile_of_validate hv

theorem isFile_of_writeText (written : String) (h : d.writeText path text = .ok d') :
    d'.isFile path = true ∧ (d.isFile written = true → d'.isFile written = true) := by
  obtain ⟨place, hloc, hfree, rfl⟩ := Disk.write_ok h
  have hextends := Disk.extends_put_file hfree text.toUTF8
  have hentry := Disk.entry?_put d (Disk.ne_nil_of_isFolderAt hfree) (.file text.toUTF8)
  constructor
  · exact isFile_iff.2 ⟨place, _, hextends.locate hloc, by rw [hentry, if_pos rfl]⟩
  · intro hfile
    obtain ⟨place', bytes, hloc', hbytes⟩ := isFile_iff.1 hfile
    refine isFile_iff.2 ?_
    by_cases hplace : place' = place
    · exact ⟨place', _, hextends.locate hloc', by rw [hentry, if_pos hplace]⟩
    · exact ⟨place', bytes, hextends.locate hloc', by rw [hentry, if_neg hplace, hbytes]⟩

def Action.Plain (a : Action) : Prop := ∀ path text, a = .write path text → (ofText path).text = path

theorem Backed.after (h : s.1.Backed s.2) {a : Action} (ha : a.Plain) : (a.after s).1.Backed (a.after s).2 := by
  rcases a.after_cases s with ⟨hafter, -⟩ | ⟨path, reply, hg, hafter, -⟩ |
    ⟨path, text, d, rfl, -, hwritten, hafter, -⟩
  · rw [hafter]
    exact h
  · rw [hafter]
    exact h.get_ok hg
  · rw [hafter]
    rw [text_target (ha path text rfl)] at hwritten
    have hold : s.1.Backed d := fun e he => (isFile_of_writeText _ hwritten).2 (h e he)
    exact hold.take (isFile_of_writeText path hwritten).1

theorem overwrites_after (s : State) (a : Action) : (a.after s).1.overwrites = s.1.overwrites := by
  rcases a.after_cases s with ⟨hafter, -⟩ | ⟨path, reply, hg, hafter, -⟩ | ⟨path, text, d, -, -, -, hafter, -⟩
  · rw [hafter]
  · obtain ⟨⟨entries, memory, hcache⟩, -⟩ := Cache.get_ok hg
    rw [hafter, hcache]
  · rw [hafter]
    rfl

theorem Backed.displaces_eq_zero (h : s.1.Backed s.2) (hnodup : (s.1.entries.map (·.1)).Nodup)
    (hover : s.1.overwrites = false) (a : Action) : a.displaces s = 0 := by
  rcases a.after_cases s with ⟨-, hnone⟩ | ⟨_, _, -, -, hnone⟩ | ⟨path, text, d, -, -, -, -, hdisplaces⟩
  · exact hnone
  · exact hnone
  · rw [hdisplaces]
    refine keptOf_makeRoom (fun kept hl => ?_) hnodup _
    have hfile := h _ (mem_of_lookup hl)
    rw [isFile_target hover] at hfile
    cases hfile

theorem Backed.displaced_eq_zero (h : s.1.Backed s.2) (hbal : s.1.Balanced surplus)
    (hover : s.1.overwrites = false) {actions : List Action} (hplain : ∀ a ∈ actions, a.Plain) :
    displaced s actions = 0 := by
  induction actions generalizing s surplus with
  | nil => rfl
  | cons a actions ih =>
    rw [forall_mem_cons] at hplain
    rw [displaced, h.displaces_eq_zero hbal.nodup hover, Nat.zero_add]
    exact ih (h.after hplain.1) (hbal.after a) ((overwrites_after s a).trans hover) hplain.2

/-! ## Histories -/

/-- After any actions, a cache counts what it keeps and what was written over while it was kept; without
overwriting, and if the written paths are plain, it counts exactly what it keeps. -/
theorem memory_eq_kept_add_displaced {maxFile limit : Amount} {allowed : List String} {overwrites : Bool}
    {fresh : Cache} (hfresh : make maxFile limit allowed overwrites = .ok fresh) (d : Disk)
    (actions : List Action) :
    let s := actions.foldl Action.after (fresh, d)
    s.1.memory = s.1.kept + displaced (fresh, d) actions ∧
      (overwrites = false → (∀ a ∈ actions, a.Plain) → s.1.memory = s.1.kept) := by
  intro s
  obtain ⟨hents, hmemory, hover⟩ : fresh.entries = [] ∧ fresh.memory = 0 ∧ fresh.overwrites = overwrites := by
    rw [make] at hfresh
    split_ifs at hfresh
    cases hfresh
    exact ⟨rfl, rfl, rfl⟩
  have hbal : fresh.Balanced 0 := ⟨by simp [hents], by rw [hmemory, kept, hents]; rfl⟩
  have hcount : s.1.memory = s.1.kept + displaced (fresh, d) actions := by
    have hrun := (Balanced.foldl_after (s := (fresh, d)) hbal actions).memory
    rwa [Nat.zero_add] at hrun
  refine ⟨hcount, fun hmode hplain => ?_⟩
  have hbacked : fresh.Backed d := by simp [Backed, hents]
  rw [hcount, hbacked.displaced_eq_zero (s := (fresh, d)) hbal (hover.trans hmode) hplain, Nat.add_zero]

namespace Twice

def disk : Disk where
  folder := { root := "/", parts := ["p"] }
  entries := [(["p"], .folder)]

def fresh (overwrites : Bool) : Cache :=
  { maxFile := .int 10, limit := 100, allowed := ["."], overwrites, entries := [], memory := 0 }

def actions (path : String) : List Action := [.write path "abc", .write path "abcd"]

def used (overwrites : Bool) (path : String) : Cache := ((actions path).foldl Action.after (fresh overwrites, disk)).1

end Twice

open Twice

/-- The second text goes to a path of its own, and both are kept and counted. -/
theorem memory_after_two_paths : make (.int 10) (.int 100) ["."] false = .ok (fresh false) ∧
    (∀ a ∈ actions "a.md", a.Plain) ∧
    (used false "a.md").memory = (used false "a.md").kept ∧
    (used false "a.md").kept = 7 ∧ (used false "a.md").presence "a.0.md" = .loaded := by
  have hfresh : make (.int 10) (.int 100) ["."] false = .ok (fresh false) := rfl
  have hplain : ∀ a ∈ actions "a.md", a.Plain := by
    simp only [actions, forall_mem_cons, not_mem_nil, false_imp_iff, implies_true, and_true,
      Action.Plain, Action.write.injEq, and_imp]
    constructor
    all_goals
      rintro path text rfl rfl
      decide
  refine ⟨hfresh, hplain, ?_, by decide, by decide⟩
  exact (memory_eq_kept_add_displaced hfresh disk (actions "a.md")).2 rfl hplain

/-- A text that is written over is still counted: with overwriting, and without it if the path ends with a slash. -/
theorem memory_after_writing_over : make (.int 10) (.int 100) ["."] true = .ok (fresh true) ∧
    (used true "a.md").memory = 7 ∧ (used true "a.md").kept = 4 ∧
    make (.int 10) (.int 100) ["."] false = .ok (fresh false) ∧
    (used false "a.md/").memory = 7 ∧ (used false "a.md/").kept = 4 := by
  refine ⟨rfl, by decide, by decide, rfl, by decide, by decide⟩

end Transclude.Cache
