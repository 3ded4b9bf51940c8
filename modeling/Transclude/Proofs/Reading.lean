import Transclude.Proofs.Paths
import Transclude.Proofs.Work

/-!
# Reading through the cache

A cache mirrors a disk if each of its paths can be read there and has the text that is kept. Reading keeps this up,
and as long as files decode, it goes wrong only for a path with a null character.
-/

namespace Transclude

open List

theorem Except.ok_bind {ε α β : Type} (a : α) (f : α → Except ε β) : (.ok a >>= f) = f a := rfl

theorem Except.of_bind_eq_ok {ε α β : Type} {x : Except ε α} {f : α → Except ε β} {b : β}
    (h : (x >>= f) = .ok b) : ∃ a, x = .ok a ∧ f a = .ok b := by
  cases x with
  | error e => cases h
  | ok a => exact ⟨a, rfl, h⟩

theorem Except.exists_ok {ε α : Type} {x : Except ε α} {P : α → Prop} (h : ∃ a ∈ x.toOption, P a) :
    ∃ a, x = .ok a ∧ P a := by
  obtain ⟨a, ha, h⟩ := h
  cases x with
  | error e => cases ha
  | ok b =>
    cases ha
    exact ⟨a, rfl, h⟩

theorem Except.of_mapError_eq_ok {ε ε' α : Type} {x : Except ε α} {f : ε → ε'} {a : α} (h : x.mapError f = .ok a) :
    x = .ok a := by
  cases x with
  | error e => cases h
  | ok b => rw [Except.ok.inj h]

theorem Except.of_bind_eq_error {ε α β : Type} {x : Except ε α} {f : α → Except ε β} {e : ε}
    (h : (x >>= f) = .error e) : x = .error e ∨ ∃ a, x = .ok a ∧ f a = .error e := by
  cases x with
  | error e' =>
    cases h
    exact .inl rfl
  | ok a => exact .inr ⟨a, rfl, h⟩

theorem Except.of_mapError_eq_error {ε ε' α : Type} {x : Except ε α} {f : ε → ε'} {e : ε'}
    (h : x.mapError f = .error e) : ∃ e', x = .error e' ∧ e = f e' := by
  cases x with
  | error e' => exact ⟨e', rfl, (Except.error.inj h).symm⟩
  | ok a => cases h

theorem mem_of_lookup {α β : Type} [BEq α] [LawfulBEq α] {table : List (α × β)} {key : α} {value : β}
    (h : table.lookup key = some value) : (key, value) ∈ table := by
  obtain ⟨before, after, rfl, -⟩ := lookup_eq_some_iff.1 h
  simp

/-! ## Disks whose files decode -/

namespace Disk

variable {d : Disk} {path : String} {bytes : ByteArray}

def Decodes (d : Disk) : Prop := ∀ path bytes, d.bytes path = .ok bytes → ∃ s, Utf8.decode bytes = .ok s

theorem Decodes.text (h : d.Decodes) (hb : d.bytes path = .ok bytes) : ∃ s, d.text path = .ok s := by
  obtain ⟨s, hs⟩ := h path bytes hb
  exact ⟨_, by rw [Disk.text, hb, Except.ok_bind, hs]; rfl⟩

theorem mem_of_bytes (h : d.bytes path = .ok bytes) : ∃ place, (place, Entry.file bytes) ∈ d.entries := by
  rw [Disk.bytes] at h
  cases hl : d.locate path with
  | error f =>
    rw [hl] at h
    cases h
  | ok place =>
    rw [hl, Except.ok_bind] at h
    split at h
    · cases h
    · cases h
    · rename_i he
      cases h
      unfold entry? at he
      split_ifs at he
      · cases he
      · exact ⟨place, mem_of_lookup he⟩

theorem bytes_of_isFile (h : d.isFile path = true) : ∃ bytes, d.bytes (Path.ofText path).text = .ok bytes := by
  cases hl : d.locate path with
  | error f =>
    simp only [isFile, stat?, hl] at h
    cases h
  | ok place =>
    simp only [isFile, stat?, hl] at h
    rw [bytes, locate_text_ofText hl, Except.ok_bind]
    split at h
    · rename_i bytes he
      exact ⟨bytes, by rw [he]; rfl⟩
    · cases h

end Disk

namespace Cache

variable {c : Cache} {d : Disk} {path text : String} {crash : Crash} {entries : List (String × Option String)}
  {e : String × Option String} {reply : Reply String}

/-! ## Caches that mirror a disk -/

def Fits (d : Disk) (e : String × Option String) : Prop :=
  ∃ text, d.text (Path.ofText e.1).text = .ok text ∧ ∀ kept, e.2 = some kept → kept = text

def Mirrors (c : Cache) (d : Disk) : Prop := ∀ e ∈ c.entries, Fits d e

theorem mirrors_of_entries_eq_nil (h : c.entries = []) : c.Mirrors d := by simp [Mirrors, h]

theorem validate_eq_error (h : c.validate d path = .error crash) : crash = .nullInPath ∧ Path.hasNull path := by
  rw [validate] at h
  split_ifs at h with _ hn
  cases h
  exact ⟨rfl, hn⟩

theorem Mirrors.text_of_validate (hc : c.Mirrors d) (hd : d.Decodes)
    (h : c.validate d path = .ok []) : ∃ text, d.text (Path.ofText path).text = .ok text := by
  cases hl : c.entries.lookup path with
  | some kept =>
    obtain ⟨text, htext, -⟩ := hc _ (mem_of_lookup hl)
    exact ⟨text, htext⟩
  | none =>
    rw [validate, hl, if_neg (by simp)] at h
    split_ifs at h
    have hr : c.refusal? d path = none := by
      cases hr : c.refusal? d path with
      | none => rfl
      | some r =>
        rw [hr] at h
        cases h
    have hfile : d.isFile path = true := by
      rw [refusal?] at hr
      split_ifs at hr with _ hf
      simpa using hf
    obtain ⟨bytes, hb⟩ := Disk.bytes_of_isFile hfile
    exact hd.text hb

theorem get_of_lookup_ne (h : ∀ text, c.entries.lookup path ≠ some (some text)) : c.get d path = (do
      let errors ← c.validate d path
      if errors.isEmpty then
        let text ← (d.text (Path.ofText path).text).mapError .disk
        return ⟨some text, [], (c.take path text).1, (c.take path text).2 ++ [.miss path]⟩
      else return ⟨none, errors, c, []⟩) := by
  rw [get]
  split
  · rename_i text hl
    exact absurd hl (h text)
  · cases hl : c.entries.lookup path with
    | none => rfl
    | some kept =>
      rw [validate, hl]
      rfl

theorem get_cases (c : Cache) (d : Disk) (path : String) : (∃ text, c.entries.lookup path = some (some text) ∧
      c.get d path = .ok ⟨some text, [], c.toFront path text, [.hit path]⟩) ∨
    (∃ crash, c.validate d path = .error crash ∧ c.get d path = .error crash) ∨
    (∃ e errors, c.validate d path = .ok (e :: errors) ∧ c.get d path = .ok ⟨none, e :: errors, c, []⟩) ∨
    c.validate d path = .ok [] ∧
      ((∃ fault, d.text (Path.ofText path).text = .error fault ∧ c.get d path = .error (.disk fault)) ∨
        ∃ text, d.text (Path.ofText path).text = .ok text ∧ c.get d path =
          .ok ⟨some text, [], (c.take path text).1, (c.take path text).2 ++ [.miss path]⟩) := by
  by_cases h : ∃ text, c.entries.lookup path = some (some text)
  · obtain ⟨text, hl⟩ := h
    exact .inl ⟨text, hl, by rw [get, hl]⟩
  · rw [get_of_lookup_ne fun text ht => h ⟨text, ht⟩]
    refine .inr ?_
    cases hv : c.validate d path with
    | error crash => exact .inl ⟨crash, rfl, rfl⟩
    | ok errors =>
      cases errors with
      | cons e errors => exact .inr (.inl ⟨e, errors, rfl, rfl⟩)
      | nil =>
        refine .inr (.inr ⟨rfl, ?_⟩)
        cases ht : d.text (Path.ofText path).text with
        | error fault => exact .inl ⟨fault, rfl, rfl⟩
        | ok text => exact .inr ⟨text, rfl, rfl⟩

/-! ### What reading does to the entries -/

/-- Whether an entry is what remains of one of some entries: its text may have been let go. -/
def Remains (entries : List (String × Option String)) (e : String × Option String) : Prop :=
  ∃ kept, (e.1, kept) ∈ entries ∧ ∀ text, e.2 = some text → kept = some text

theorem remains_of_mem (h : e ∈ entries) : Remains entries e := ⟨e.2, h, fun _ => id⟩

theorem remains_unload {limit : Int} {needed memory : Nat} (h : e ∈ (unload limit needed memory entries).1) :
    Remains entries e := by
  fun_induction unload limit needed memory entries with
  | case1 => cases h
  | case2 _ path rest _ s _ _ _ hrest ih =>
    rcases mem_cons.1 h with rfl | h
    · exact ⟨some s, mem_cons_self, nofun⟩
    · obtain ⟨kept, hmem, hkept⟩ := ih (by rwa [hrest])
      exact ⟨kept, mem_cons_of_mem _ hmem, hkept⟩
  | case3 _ path rest _ _ _ _ hrest ih =>
    rcases mem_cons.1 h with rfl | h
    · exact ⟨none, mem_cons_self, nofun⟩
    · obtain ⟨kept, hmem, hkept⟩ := ih (by rwa [hrest])
      exact ⟨kept, mem_cons_of_mem _ hmem, hkept⟩
  | case4 => exact remains_of_mem h

theorem remains_take (h : e ∈ (c.take path text).1.entries) : e = (path, some text) ∨ Remains c.entries e := by
  rcases mem_cons.1 h with rfl | h
  · exact .inl rfl
  · obtain ⟨kept, hmem, hkept⟩ := remains_unload (mem_reverse.1 (mem_filter.1 h).1)
    exact .inr ⟨kept, mem_reverse.1 hmem, hkept⟩

theorem get_ok (hg : c.get d path = .ok reply) : (∃ entries memory, reply.cache = { c with entries, memory }) ∧
    ∀ e ∈ reply.cache.entries, Remains c.entries e ∨ ∃ text, e = (path, some text) ∧
      reply.value = some text ∧ reply.errors = [] ∧ c.validate d path = .ok [] := by
  rcases get_cases c d path with ⟨text, hl, he⟩ | ⟨_, _, he⟩ | ⟨_, _, _, he⟩ | ⟨hv, ⟨_, _, he⟩ | ⟨text, _, he⟩⟩
  all_goals
    rw [he] at hg
    cases hg
  · refine ⟨⟨_, _, rfl⟩, forall_mem_cons.2 ⟨.inr ⟨text, rfl, rfl, rfl, ?_⟩, fun e he => ?_⟩⟩
    · rw [validate, hl]
      rfl
    · exact .inl (remains_of_mem (mem_filter.1 he).1)
  · exact ⟨⟨_, _, rfl⟩, fun e he => .inl (remains_of_mem he)⟩
  · refine ⟨⟨_, _, rfl⟩, fun e he => (remains_take he).symm.imp_right ?_⟩
    rintro rfl
    exact ⟨text, rfl, rfl, rfl, hv⟩

theorem Mirrors.get_ok (h : c.Mirrors d) (hg : c.get d path = .ok reply) :
    reply.cache.Mirrors d ∧ ∀ text, reply.value = some text → d.text (Path.ofText path).text = .ok text := by
  have hval : ∀ text, reply.value = some text → d.text (Path.ofText path).text = .ok text := by
    rcases get_cases c d path with ⟨text, hl, he⟩ | ⟨_, _, he⟩ | ⟨_, _, _, he⟩ | ⟨_, ⟨_, _, he⟩ | ⟨text, ht, he⟩⟩
    all_goals
      rw [he] at hg
      cases hg
    · obtain ⟨text', ht, hkept⟩ := h _ (mem_of_lookup hl)
      exact fun _ e => Option.some.inj e ▸ hkept text rfl ▸ ht
    · exact nofun
    · exact fun _ e => Option.some.inj e ▸ ht
  refine ⟨fun e he => ?_, hval⟩
  rcases (Cache.get_ok hg).2 e he with ⟨kept, hmem, hkept⟩ | ⟨text, rfl, hreply, -⟩
  · obtain ⟨text, ht, hsame⟩ := h _ hmem
    exact ⟨text, ht, fun s hs => hsame s (hkept s hs)⟩
  · exact ⟨text, hval text hreply, fun _ hs => (Option.some.inj hs).symm⟩

theorem Mirrors.get_error (h : c.Mirrors d) (hd : d.Decodes) (hg : c.get d path = .error crash) : crash = .nullInPath ∧ Path.hasNull path := by
  rcases get_cases c d path with ⟨_, _, he⟩ | ⟨crash', hv, he⟩ | ⟨_, _, _, he⟩ |
    ⟨hv, ⟨_, ht, _⟩ | ⟨_, _, he⟩⟩
  · cases he.symm.trans hg
  · cases he.symm.trans hg
    exact validate_eq_error hv
  · cases he.symm.trans hg
  · obtain ⟨text, htext⟩ := h.text_of_validate hd hv
    cases htext.symm.trans ht
  · cases he.symm.trans hg

end Cache

/-! ## Reading as work -/

def Desk.Mirrors (disk : Disk) (d : Desk) : Prop := d.disk = disk ∧ d.cache.Mirrors disk

namespace Work

variable {path : String}

theorem run_emit_cache (events : List Cache.Event) (d : Desk) :
    (forIn events PUnit.unit fun e _ => do emit (.cache e); pure (.yield PUnit.unit) : Work PUnit).run d =
      (.ok PUnit.unit, { d with past := (events.map fun e => Output.event (.cache e)).reverse ++ d.past }) := by
  induction events generalizing d with
  | nil => rfl
  | cons e events ih =>
    rw [forIn_cons]
    have hstep : (do emit (.cache e); pure (.yield PUnit.unit) : Work (ForInStep PUnit)).run d =
        (.ok (.yield PUnit.unit), { d with past := .event (.cache e) :: d.past }) := rfl
    rw [run_bind_of_ok hstep, ih]
    simp

theorem run_readFile (path : String) (d : Desk) : (readFile path).run d =
      match d.cache.get d.disk path with
      | .error crash => (.error crash, d)
      | .ok reply => (.ok (reply.value, reply.errors), { d with
          cache := reply.cache
          past := (reply.events.map fun e => Output.event (.cache e)).reverse ++ d.past }) := by
  rw [readFile, run_bind_of_ok (run_get d)]
  cases d.cache.get d.disk path with
  | error crash => exact run_bind_of_error (run_lift_error crash d)
  | ok reply =>
    rw [run_bind_of_ok (run_lift_ok reply d), run_bind_of_ok (run_modify _ d), run_bind_of_ok (run_emit_cache _ _)]
    rfl

theorem mirrors_readFile {disk : Disk} (hdisk : disk.Decodes) {d : Desk} (h : d.Mirrors disk) :
    ((readFile path).run d).2.Mirrors disk ∧
      Outcome (fun found => ∀ text, found.1 = some text → disk.text (Path.ofText path).text = .ok text)
        (fun c => c = .nullInPath ∧ Path.hasNull path) ((readFile path).run d).1 := by
  obtain ⟨rfl, hc⟩ := h
  rw [run_readFile]
  cases hg : d.cache.get d.disk path with
  | error crash => exact ⟨⟨rfl, hc⟩, hc.get_error hdisk hg⟩
  | ok reply =>
    obtain ⟨hc', ht⟩ := hc.get_ok hg
    exact ⟨⟨rfl, hc'⟩, ht⟩

end Work

end Transclude
