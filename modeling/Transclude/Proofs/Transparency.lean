import Transclude.Proofs.Reading

/-!
# The cache does not show

`Cache.direct` reads a file past the cache. A cache is faithful if each of its paths would be read that way, with the
text that is kept for it. So what was asked before makes no difference to an answer (`answer_after_requests`).
-/

namespace Transclude.Cache

open List

variable {c c' : Cache} {d : Disk} {path text : String} {reply : Reply String}

/-! ## Reading past the cache -/

def objections (c : Cache) (d : Disk) (path : String) : Except Crash (List Status) :=
  if Path.hasNull path then .error .nullInPath
  else .ok ((c.refusal? d path).toList.map (·.status))

def direct (c : Cache) (d : Disk) (path : String) : Except Crash (Option String × List Status) := do
  let errors ← c.objections d path
  if errors.isEmpty then
    let text ← (d.text (Path.ofText path).text).mapError .disk
    return (some text, [])
  else return (none, errors)

def answer (r : Except Crash (Reply String)) : Except Crash (Option String × List Status) :=
  r.map fun reply => (reply.value, reply.errors)

def SameLimits (c c' : Cache) : Prop := c'.maxFile = c.maxFile ∧ c'.allowed = c.allowed

theorem SameLimits.objections_eq (h : SameLimits c c') : c'.objections d path = c.objections d path := by
  simp only [objections, refusal?, h.1, h.2]

theorem SameLimits.direct_eq (h : SameLimits c c') : c'.direct d path = c.direct d path := by
  rw [direct, h.objections_eq, direct]

theorem validate_eq_ite (c : Cache) (d : Disk) (path : String) :
    c.validate d path = if (c.entries.lookup path).isSome then .ok [] else c.objections d path := rfl

theorem direct_eq_text_iff : c.direct d path = .ok (some text, []) ↔
      c.objections d path = .ok [] ∧ d.text (Path.ofText path).text = .ok text := by
  rw [direct]
  cases c.objections d path with
  | error crash => simp [bind, Except.bind]
  | ok errors =>
    rw [Except.ok_bind]
    cases errors with
    | cons e errors => simp [pure, Except.pure]
    | nil => cases d.text (Path.ofText path).text <;> simp [bind, Except.bind, pure, Except.pure, Except.mapError]

/-! ## Faithful caches -/

def Faithful (c : Cache) (d : Disk) : Prop :=
  ∀ e ∈ c.entries, ∃ text, c.direct d e.1 = .ok (some text, []) ∧ ∀ kept, e.2 = some kept → kept = text

theorem faithful_of_entries_eq_nil (h : c.entries = []) : c.Faithful d := by simp [Faithful, h]

namespace Faithful

theorem of_lookup {kept : Option String} (h : c.Faithful d) (hl : c.entries.lookup path = some kept) :
    ∃ text, c.direct d path = .ok (some text, []) ∧ ∀ s, kept = some s → s = text := by
  exact h (path, kept) (mem_of_lookup hl)

theorem validate_eq (h : c.Faithful d) (path : String) : c.validate d path = c.objections d path := by
  rw [validate_eq_ite]
  split_ifs with hl
  · obtain ⟨kept, hl⟩ := Option.isSome_iff_exists.1 hl
    obtain ⟨text, hdirect, -⟩ := h.of_lookup hl
    exact (direct_eq_text_iff.1 hdirect).1.symm
  · rfl

theorem answer_get (h : c.Faithful d) (path : String) : answer (c.get d path) = c.direct d path := by
  rcases get_cases c d path with ⟨text, hl, he⟩ | ⟨crash, hv, he⟩ | ⟨e, errors, hv, he⟩ |
    ⟨hv, ⟨fault, ht, he⟩ | ⟨text, ht, he⟩⟩
  · obtain ⟨text', hdirect, hkept⟩ := h.of_lookup hl
    rw [he, hdirect, hkept text rfl]
    rfl
  all_goals
    rw [h.validate_eq] at hv
    rw [he, direct, hv]
  · rfl
  · rfl
  · rw [ht]
    rfl
  · rw [ht]
    rfl

theorem get_ok (h : c.Faithful d) (hg : c.get d path = .ok reply) :
    reply.cache.Faithful d ∧ SameLimits c reply.cache := by
  obtain ⟨⟨entries, memory, hcache⟩, hents⟩ := Cache.get_ok hg
  have hlimits : SameLimits c reply.cache := hcache ▸ ⟨rfl, rfl⟩
  refine ⟨fun e he => ?_, hlimits⟩
  rw [hlimits.direct_eq]
  rcases hents e he with ⟨kept, hmem, hkept⟩ | ⟨text, rfl, hval, herrors, -⟩
  · obtain ⟨text, hdirect, hsame⟩ := h _ hmem
    exact ⟨text, hdirect, fun s hs => hsame s (hkept s hs)⟩
  · have hans := h.answer_get path
    rw [hg, answer, Except.map, hval, herrors] at hans
    exact ⟨text, hans.symm, fun _ hs => (Option.some.inj hs).symm⟩

end Faithful

/-! ## Requests -/

inductive Request where
  | read (path : String)
  | validate (path : String)
  | find (pattern : String)
  | presence (path : String)

/-- The cache after a request. Only reading changes it, and a crash leaves it as it was. -/
def Request.after (d : Disk) (c : Cache) : Request → Cache
  | .read path =>
    match c.get d path with
    | .ok reply => reply.cache
    | .error _ => c
  | .validate _ => c
  | .find _ => c
  | .presence _ => c

theorem Faithful.after (h : c.Faithful d) (request : Request) :
    (request.after d c).Faithful d ∧ SameLimits c (request.after d c) := by
  cases request with
  | read path =>
    rw [Request.after]
    split
    · rename_i reply hg
      exact h.get_ok hg
    · exact ⟨h, rfl, rfl⟩
  | validate _ => exact ⟨h, rfl, rfl⟩
  | find _ => exact ⟨h, rfl, rfl⟩
  | presence _ => exact ⟨h, rfl, rfl⟩

theorem Faithful.foldl_after (h : c.Faithful d) (requests : List Request) :
    (requests.foldl (Request.after d) c).Faithful d ∧ SameLimits c (requests.foldl (Request.after d) c) := by
  induction requests generalizing c with
  | nil => exact ⟨h, rfl, rfl⟩
  | cons request requests ih =>
    obtain ⟨hnext, hlimits⟩ := h.after request
    obtain ⟨hlast, hlimits'⟩ := ih hnext
    exact ⟨hlast, hlimits'.1.trans hlimits.1, hlimits'.2.trans hlimits.2⟩

theorem after_read_of_no_text (h : ∀ text, answer (c.get d path) ≠ .ok (some text, [])) :
    Request.after d c (.read path) = c := by
  rw [Request.after]
  rcases get_cases c d path with ⟨text, _, he⟩ | ⟨_, _, he⟩ | ⟨_, _, _, he⟩ |
    ⟨_, ⟨_, _, he⟩ | ⟨text, _, he⟩⟩
  all_goals rw [he] at h ⊢
  · exact absurd rfl (h text)
  · exact absurd rfl (h text)

theorem run_readFile_eq (desk : Desk) (path : String) :
    ((Work.readFile path).run desk).1 = answer (desk.cache.get desk.disk path) ∧
      ((Work.readFile path).run desk).2.cache = Request.after desk.disk desk.cache (.read path) := by
  rw [Work.run_readFile, Request.after]
  cases desk.cache.get desk.disk path with
  | error crash => exact ⟨rfl, rfl⟩
  | ok reply => exact ⟨rfl, rfl⟩

/-- What was asked of a cache before does not show in what it answers, and only a request that gives a text changes
it. -/
theorem answer_after_requests {maxFile limit : Amount} {allowed : List String} {overwrites : Bool}
    {fresh : Cache} (hfresh : make maxFile limit allowed overwrites = .ok fresh) (d : Disk)
    (requests : List Request) (path : String) :
    let c := requests.foldl (Request.after d) fresh
    answer (c.get d path) = answer (fresh.get d path) ∧
      ((∀ text, answer (c.get d path) ≠ .ok (some text, [])) → Request.after d c (.read path) = c) ∧
      ∀ desk : Desk, desk.disk = d → desk.cache = c → ((Work.readFile path).run desk).1 = answer (fresh.get d path) ∧
        ((Work.readFile path).run desk).2.cache = Request.after d c (.read path) := by
  intro c
  have hempty : fresh.entries = [] := by
    rw [make] at hfresh
    split_ifs at hfresh
    cases hfresh
    rfl
  have hfaith : fresh.Faithful d := faithful_of_entries_eq_nil hempty
  obtain ⟨hc, hlimits⟩ := hfaith.foldl_after requests
  have hans : answer (c.get d path) = answer (fresh.get d path) :=
    calc answer (c.get d path) = c.direct d path := hc.answer_get path
      _ = fresh.direct d path := hlimits.direct_eq
      _ = answer (fresh.get d path) := (hfaith.answer_get path).symm
  refine ⟨hans, after_read_of_no_text, fun desk hdisk hcache => ?_⟩
  have hrun := run_readFile_eq desk path
  rw [hdisk, hcache, hans] at hrun
  exact hrun

namespace Pair

def disk : Disk where
  folder := { root := "/", parts := ["p"] }
  entries := [(["p"], .folder), (["p", "a.md"], .file "abc".toUTF8), (["p", "b.md"], .file "xyz".toUTF8)]

def requests : List Request := [.read "a.md", .read "b.md", .validate "c.md", .read "c.md"]

def fresh : Cache :=
  { maxFile := .int 3, limit := 5, allowed := ["."], overwrites := false, entries := [], memory := 0 }

def used : Cache := requests.foldl (Request.after disk) fresh

end Pair

/-- The first file is let go for the second one, and read again. -/
theorem answer_after_eviction :
    make (.int 3) (.int 5) ["."] false = .ok Pair.fresh ∧ Pair.used.presence "a.md" = .unloaded ∧
    answer (Pair.used.get Pair.disk "a.md") = answer (Pair.fresh.get Pair.disk "a.md") ∧
    answer (Pair.fresh.get Pair.disk "a.md") = .ok (some "abc", []) := by
  have hfresh : make (.int 3) (.int 5) ["."] false = .ok Pair.fresh := rfl
  refine ⟨hfresh, by decide, ?_, by decide⟩
  exact (answer_after_requests hfresh Pair.disk Pair.requests "a.md").1

end Transclude.Cache
