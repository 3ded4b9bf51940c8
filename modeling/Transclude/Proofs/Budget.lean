import Transclude.Proofs.Accounting
import Transclude.Proofs.Scanning

/-!
# The budget of a cache

A file is let in by its bytes, and its text is counted in characters, of which there are no more. So letting texts go
always ends with room for it (`hasRoom_makeRoom`), and a cache that is only read from keeps no more than its limit
(`kept_le_limit_of_reads`).
-/

namespace Transclude

open String

/-! ## Characters and bytes -/

theorem length_le_utf8ByteSize (s : String) : s.length ≤ s.utf8ByteSize := by
  have key : ∀ cs : List Char, cs.length ≤ (String.ofList cs).utf8ByteSize := by
    intro cs
    induction cs with
    | nil => exact Nat.zero_le _
    | cons c cs ih =>
      rw [ofList_cons, utf8ByteSize_append, utf8ByteSize_singleton, List.length_cons]
      have := c.utf8Size_pos
      omega
  simpa only [ofList_toList, length_toList] using key s.toList

theorem Utf8.length_le_size {bytes : ByteArray} {s : String} (h : decode bytes = .ok s) : s.length ≤ bytes.size := by
  rw [decode] at h
  split at h
  · rename_i s' hs
    cases h
    rw [String.fromUTF8?] at hs
    split_ifs at hs
    cases hs
    exact length_le_utf8ByteSize _
  · cases h

namespace Disk

variable {d : Disk} {path text : String}

theorem length_text_le {bytes : ByteArray} (hbytes : d.bytes path = .ok bytes) (h : d.text path = .ok text) :
    text.length ≤ bytes.size := by
  rw [Disk.text, hbytes, Except.ok_bind] at h
  obtain ⟨s, hs, h⟩ := Except.of_bind_eq_ok h
  cases h
  calc (String.ofList (Text.universalNewlines s.toList)).length
      = (Text.universalNewlines s.toList).length := length_ofList
    _ ≤ s.toList.length := Text.length_universalNewlines_le _
    _ = s.length := length_toList
    _ ≤ bytes.size := Utf8.length_le_size (Except.of_mapError_eq_ok hs)

theorem length_text_le_size (hfile : d.isFile path = true) (h : d.text (Path.ofText path).text = .ok text) :
    text.length ≤ d.size path := by
  obtain ⟨place, bytes, hloc, hentry⟩ := isFile_iff.1 hfile
  obtain ⟨hbytes, hagain⟩ := bytes_of_locate hloc hentry
  rw [Disk.size, hbytes]
  exact length_text_le hagain h

end Disk

namespace Cache

variable {c : Cache} {d : Disk} {path text : String} {needed : Nat} {limit : Int}

theorem length_le_maxFile (h : c.direct d path = .ok (some text, [])) : (text.length : Int) ≤ c.maxFile.value := by
  rw [direct_eq_text_iff, objections_eq_nil_iff, refusal?_eq_none_iff] at h
  obtain ⟨⟨-, -, hfile, hsize⟩, htext⟩ := h
  have := Disk.length_text_le_size hfile htext
  omega

/-! ## Room -/

def HasRoom (c : Cache) (needed : Nat) : Prop := (c.memory + needed : Int) ≤ c.limit

theorem unload_ends (limit : Int) (needed memory : Nat) (entries : List (String × Option String)) :
    ((unload limit needed memory entries).2.1 + needed : Int) ≤ limit ∨
      ∀ e ∈ (unload limit needed memory entries).1, e.2 = none := by
  fun_induction unload limit needed memory entries with
  | case1 => exact .inr (by simp)
  | case2 memory path rest _ s rest' memory' events hrest ih =>
    rw [hrest] at ih
    exact ih.imp_right fun h => List.forall_mem_cons.2 ⟨rfl, h⟩
  | case3 memory path rest _ rest' memory' events hrest ih =>
    rw [hrest] at ih
    exact ih.imp_right fun h => List.forall_mem_cons.2 ⟨rfl, h⟩
  | case4 memory path text rest hfits => exact .inl (by simpa using hfits)

theorem makeRoom_ends (c : Cache) (needed : Nat) :
    (c.makeRoom needed).1.HasRoom needed ∨ ∀ e ∈ (c.makeRoom needed).1.entries, e.2 = none := by
  refine (unload_ends c.limit needed c.memory c.entries.reverse).imp_right fun h e he => ?_
  exact h e (List.mem_reverse.1 he)

theorem charsIn_eq_zero {entries : List (String × Option String)} (h : ∀ e ∈ entries, e.2 = none) :
    charsIn entries = 0 := by
  induction entries with
  | nil => rfl
  | cons e entries ih =>
    rw [List.forall_mem_cons] at h
    rw [charsIn_cons, h.1, ih h.2]
    rfl

theorem hasRoom_makeRoom (h : c.Balanced 0) (hneeded : (needed : Int) ≤ c.limit) :
    (c.makeRoom needed).1.HasRoom needed := by
  rcases c.makeRoom_ends needed with hroom | hspent
  · exact hroom
  · have hmemory : (c.makeRoom needed).1.memory = 0 := by rw [(h.makeRoom needed).memory, kept, charsIn_eq_zero hspent]
    have hlimit : (c.makeRoom needed).1.limit = c.limit := rfl
    rw [HasRoom]
    omega

/-! ## Reading -/

/-- Whether a cache can be what reading from a disk comes to: it holds what the disk does, counts what it keeps, and
keeps no more than its limit unless it holds nothing. -/
structure Thrifty (limit : Int) (d : Disk) (c : Cache) : Prop where
  faithful : c.Faithful d
  balanced : c.Balanced 0
  limit_eq : c.limit = limit
  maxFile_lt : c.maxFile.value < limit
  within : (c.kept : Int) ≤ limit ∨ c.entries = []

theorem Thrifty.hasRoom (h : Thrifty limit d c) (hdirect : c.direct d path = .ok (some text, [])) :
    (c.makeRoom text.length).1.HasRoom text.length := by
  have hlen := length_le_maxFile hdirect
  have hlimit := h.maxFile_lt
  rw [← h.limit_eq] at hlimit
  exact hasRoom_makeRoom h.balanced (by omega)

theorem Thrifty.get_ok {reply : Reply String} (h : Thrifty limit d c) (hg : c.get d path = .ok reply) :
    Thrifty limit d reply.cache ∧
      (.miss path ∈ reply.events → ∃ text, reply.value = some text ∧ reply.cache = (c.take path text).1 ∧
        c.direct d path = .ok (some text, [])) := by
  have hans := h.faithful.answer_get path
  have hfaith := (h.faithful.get_ok hg).1
  have hbal := h.balanced.get_ok hg
  rw [hg] at hans
  rcases get_cases c d path with ⟨text, hl, he⟩ | ⟨_, _, he⟩ | ⟨_, _, _, he⟩ | ⟨_, ⟨_, _, he⟩ | ⟨text, -, he⟩⟩
  all_goals
    rw [he] at hg
    cases hg
  · refine ⟨⟨hfaith, hbal, h.limit_eq, h.maxFile_lt, ?_⟩, by simp⟩
    have hkept : (c.toFront path text).kept = c.kept :=
      calc (c.toFront path text).kept = (c.toFront path text).memory := hbal.memory.symm
        _ = c.memory := rfl
        _ = c.kept := h.balanced.memory
    rw [hkept]
    refine h.within.imp_right fun hempty => ?_
    rw [hempty] at hl
    cases hl
  · exact ⟨h, by simp⟩
  · refine ⟨⟨hfaith, hbal, h.limit_eq, h.maxFile_lt, .inl ?_⟩, fun _ => ⟨text, rfl, rfl, hans.symm⟩⟩
    have hroom := h.hasRoom hans.symm
    rw [← Nat.add_zero (kept _), ← hbal.memory, ← h.limit_eq]
    exact hroom

theorem Thrifty.after (h : Thrifty limit d c) (request : Request) : Thrifty limit d (request.after d c) := by
  cases request with
  | read path =>
    rw [Request.after]
    split
    · rename_i reply hg
      exact (h.get_ok hg).1
    · exact h
  | validate _ => exact h
  | find _ => exact h
  | presence _ => exact h

theorem Thrifty.foldl_after (h : Thrifty limit d c) (requests : List Request) :
    Thrifty limit d (requests.foldl (Request.after d) c) := by
  induction requests generalizing c with
  | nil => exact h
  | cons request requests ih => exact ih (h.after request)

theorem thrifty_of_make {maxFile limit : Amount} {allowed : List String} {overwrites : Bool} {fresh : Cache}
    (hfresh : make maxFile limit allowed overwrites = .ok fresh) (d : Disk) :
    Thrifty limit.value d fresh := by
  rw [make] at hfresh
  split_ifs at hfresh with hlimit
  cases hfresh
  exact ⟨faithful_of_entries_eq_nil rfl, ⟨List.nodup_nil, rfl⟩, rfl, hlimit, .inr rfl⟩

/-! ## Histories -/

/-- A cache that is only read from keeps no more characters than its limit, and a text that is read into it finds
room. If the limit is below zero, nothing is let in. -/
theorem kept_le_limit_of_reads {maxFile limit : Amount} {allowed : List String} {overwrites : Bool} {fresh : Cache}
    (hfresh : make maxFile limit allowed overwrites = .ok fresh) (d : Disk) (requests : List Request) :
    let c := requests.foldl (Request.after d) fresh
    (0 ≤ limit.value → (c.kept : Int) ≤ limit.value) ∧ (limit.value < 0 → c.entries = []) ∧
      ∀ path reply, c.get d path = .ok reply → .miss path ∈ reply.events →
        ∃ text, reply.value = some text ∧ reply.cache = (c.take path text).1 ∧
          ((c.makeRoom text.length).1.memory + text.length : Int) ≤ limit.value ∧
          (c.makeRoom text.length).1.memory = (c.makeRoom text.length).1.kept := by
  intro c
  have hc : Thrifty limit.value d c := (thrifty_of_make hfresh d).foldl_after requests
  refine ⟨fun hpos => ?_, fun hnegative => ?_, fun path reply hg hmiss => ?_⟩
  · rcases hc.within with hwithin | hempty
    · exact hwithin
    · rw [kept, hempty]
      exact hpos
  · refine hc.within.resolve_left fun hwithin => ?_
    omega
  · obtain ⟨text, hval, htake, hdirect⟩ := (hc.get_ok hg).2 hmiss
    exact ⟨text, hval, htake, hc.limit_eq ▸ hc.hasRoom hdirect, (hc.balanced.makeRoom text.length).memory⟩

namespace Crowded

def disk : Disk where
  folder := { root := "/", parts := ["p"] }
  entries := [(["p"], .folder), (["p", "a.md"], .file "ab".toUTF8), (["p", "b.md"], .file "cd".toUTF8),
    (["p", "c.md"], .file "é\r\n".toUTF8), (["p", "d.md"], .file "vwxyz".toUTF8)]

def fresh (maxFile limit : Int) : Cache :=
  { maxFile := .int maxFile, limit, allowed := ["."], overwrites := false, entries := [], memory := 0 }

def used (maxFile limit : Int) : Cache :=
  [Request.read "a.md", .read "b.md", .read "c.md"].foldl (Request.after disk) (fresh maxFile limit)

end Crowded

open Crowded

theorem kept_le_limit_when_crowded :
    make (.int 5) (.int 6) ["."] false = .ok (fresh 5 6) ∧ ((used 5 6).kept : Int) ≤ 6 ∧
    (used 5 6).kept = 6 ∧
    ∃ reply, (used 5 6).get disk "d.md" = .ok reply ∧
      reply.events = [.eviction "a.md", .eviction "b.md", .eviction "c.md", .miss "d.md"] ∧
      ∃ text, reply.value = some text ∧
        (((used 5 6).makeRoom text.length).1.memory + text.length : Int) ≤ 6 := by
  have hfresh : make (.int 5) (.int 6) ["."] false = .ok (fresh 5 6) := rfl
  obtain ⟨hkept, -, hroom⟩ := kept_le_limit_of_reads hfresh disk [.read "a.md", .read "b.md", .read "c.md"]
  have hevents : ((used 5 6).get disk "d.md").toOption.map (·.events) =
      some [.eviction "a.md", .eviction "b.md", .eviction "c.md", .miss "d.md"] := by decide
  cases hg : (used 5 6).get disk "d.md" with
  | error crash =>
    rw [hg] at hevents
    cases hevents
  | ok reply =>
    have hevents : reply.events = _ := Option.some.inj (hg ▸ hevents)
    obtain ⟨text, hval, -, htext, -⟩ := hroom "d.md" reply hg (by simp [hevents])
    exact ⟨hfresh, hkept (by decide), by decide, reply, rfl, hevents, text, hval, htext⟩

/-- A limit below zero is not met even by a cache that lets nothing in. -/
theorem kept_exceeds_negative_limit : make (.int (-2)) (.int (-1)) ["."] false = .ok (fresh (-2) (-1)) ∧
    ¬ ((used (-2) (-1)).kept : Int) ≤ -1 := by
  exact ⟨rfl, by decide⟩

end Cache

end Transclude
