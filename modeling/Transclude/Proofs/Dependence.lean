import Transclude.Proofs.Folders
import Transclude.Proofs.Replays

/-!
# What a compiled document depends on

What comes of a file is its plan, the text that the plan compiles to, and what is heard meanwhile
(`Compile.product`). It is the same wherever the sources that occur in documents are read alike. How much the
cache may keep has no part in it.
-/

namespace Transclude

open Work Plan

namespace Desk

variable {base d d' : Desk} {known known' trusted : String → Prop} {logged : Prop}

theorem Alike.mono (h : Alike base known trusted logged d d') (hknown : ∀ p, known' p → known p) :
    Alike base known' trusted logged d d' :=
  { h with left := h.left.mono hknown }

theorem alike_of_fresh (hright : Serves base trusted d') (hleft : Serves base known d)
    (hd : d.cache.entries = []) (hd' : d'.cache.entries = []) (hans : d'.answers = d.answers)
    (hterminal : d'.terminal = d.terminal) (hacc : d'.acceptAll = d.acceptAll)
    (hcomp : d'.compiled = d.compiled) (hpast : d'.past = d.past) :
    Alike base known trusted logged d d' where
  left := hleft
  right := hright
  kept e he := by simp [hd] at he
  kept' e he := by simp [hd'] at he
  answers := hans
  terminal := hterminal
  acceptAll := hacc
  compiled _ := hcomp
  heard _ := by rw [heard, heard, hpast]

end Desk

namespace Compile

/-- What comes of a file: its plan, and what that compiles to, with what was heard by then. -/
structure Product where
  plan : Except Crash Node
  planning : List Output
  text : Option (Except Crash String)
  heard : List Output

def product (config : Config) (r : Registry) (path compiledDir : String) (d : Desk) : Product :=
  let planned := (planFile config r path).run d
  match planned.1 with
  | .error c => ⟨.error c, planned.2.heard, none, planned.2.heard⟩
  | .ok root =>
    let compiled := (compilePlan config r compiledDir root).run planned.2
    ⟨.ok root, planned.2.heard, some compiled.1, compiled.2.heard⟩

variable {config : Config} {r : Registry} {path compiledDir : String} {base d d' : Desk}
  {document : String → String → Prop} {trusted usable : String → Prop}

theorem product_eq_of_alike (hrel : Reliable base document trusted usable True)
    (hroot : trusted (Path.resolve base.disk.folder (.ofText path)).text)
    (h : Plan.Alike base trusted True d d') :
    product config r path compiledDir d' = product config r path compiledDir d := by
  have hclear : Clear True (Node.Sound usable) ((planFile config r path).run d).1 := .inl trivial
  have hsrc : True → trusted ((Subject.file path).source base.disk.folder) := fun _ => hroot
  obtain ⟨hsame, houtcome, halike, -⟩ := agree_plan hrel hsrc (fun _ h => by cases h) ⟨h, rfl, rfl⟩ hclear
  rw [Subject.plan] at hsame houtcome halike
  simp only [product, hsame, halike.heard trivial]
  cases hres : ((planFile config r path).run d).1 with
  | error c => rfl
  | ok root =>
    rw [hres] at houtcome
    obtain ⟨hsame, -, halike, -⟩ := even_compilePlan (advances_matched fun _ _ => trivial) config r
      ⟨houtcome, fun _ _ _ => .inl trivial⟩ compiledDir _ _ ⟨halike.mono fun _ _ => trivial, rfl, rfl⟩
    simp only [hsame, halike.heard trivial]

theorem compilePlan_ne_uncached {root : Node} {d₁ : Desk} (hd : d.cache.Faithful d.disk)
    (hplan : (planFile config r path).run d = (.ok root, d₁)) (compiledDir : String) :
    ((compilePlan config r compiledDir root).run d₁).1 ≠ .error uncached := by
  have halone : Session.Alone d config r path root := by rw [Session.Alone, hplan]
  obtain ⟨hstands, -⟩ := halone.stands hd
  have hready : Ready (fun path found => d.reads path = .ok found) (fun _ => True) (· ≠ uncached) root := by
    refine ⟨fun _ _ => .inr trivial, fun n hn hdoc => .inr fun found hfound => ?_⟩
    obtain ⟨content, fragments, hopened⟩ := hstands.opened hn hdoc
    exact ⟨content, Except.ok.inj (hfound.symm.trans hopened.reads)⟩
  have htwin := (steady_planFile config r path).twin hd
  rw [hplan] at htwin
  have houtcome := (even_compilePlan (advances_matched fun _ h => h) config r hready compiledDir d₁ d₁
    ⟨htwin.serves.alike_self, rfl, rfl⟩).outcome
  intro hcrash
  rw [hcrash] at houtcome
  exact houtcome rfl

/-! ## Two documents -/

namespace Couple

def embedding (source : String) : String := "```yaml embedm\ntype: file\nsource: \"" ++ source ++ "\"\n```\n"

def disk (folder source : String) (outside : List (List String × Disk.Entry)) : Disk where
  folder := { root := "/", parts := [folder] }
  entries := [([folder], .folder), ([folder, "a.md"], .file (embedding source).toUTF8),
    ([folder, "b.md"], .file "This is the second one.\n".toUTF8)] ++ outside

def cache (bytes characters : Int) : Cache :=
  { maxFile := .int bytes, limit := characters, allowed := ["./**"], overwrites := false, entries := [], memory := 0 }

def keptBy (config : Config) (desk : Desk) : List String :=
  (((planFile config Sole.registry "a.md").run desk).2.cache.entries.filter (·.2.isSome)).map (·.1)

end Couple

/-! ## Budgets -/

theorem entries_of_cacheOf {cache : Cache} (h : Session.cacheOf config = .ok cache) :
    cache.entries = [] ∧ cache.maxFile = config.maxFile ∧ cache.allowed = ["./**"] := by
  rw [Session.cacheOf, Cache.make] at h
  split_ifs at h
  cases h
  exact ⟨rfl, rfl, rfl⟩

/-- The same comes of a file however much the cache may keep, as long as it may keep the largest file and no source is
missing when its document is compiled. -/
theorem product_of_budget {memory : Amount} {cache cache' : Cache} (hcache : Session.cacheOf config = .ok cache)
    (hcache' : Session.cacheOf { config with maxMemory := memory } = .ok cache') (r : Registry) (desk : Desk)
    (path compiledDir : String) :
    product { config with maxMemory := memory } r path compiledDir { desk with cache := cache' } =
      product config r path compiledDir { desk with cache := cache } ∧
    (product config r path compiledDir { desk with cache := cache }).text ≠ some (.error uncached) := by
  obtain ⟨hents, hmax, hallow⟩ := entries_of_cacheOf hcache
  obtain ⟨hents', hmax', hallow'⟩ := entries_of_cacheOf hcache'
  have hfaith : cache.Faithful desk.disk := Cache.faithful_of_entries_eq_nil hents
  constructor
  · have hserves : Desk.Serves { desk with cache := cache } (fun _ => True) { desk with cache := cache } :=
      Desk.serves_of_disk_eq rfl ⟨rfl, rfl⟩ hfaith
    have hserves' : Desk.Serves { desk with cache := cache } (fun _ => True) { desk with cache := cache' } :=
      Desk.serves_of_disk_eq rfl ⟨hmax'.trans hmax.symm, hallow'.trans hallow.symm⟩
        (Cache.faithful_of_entries_eq_nil hents')
    have hrel : Reliable { desk with cache := cache }
        (fun source content => Desk.reads { desk with cache := cache } source = .ok (some content, []))
        (fun _ => True) (fun _ => True) True :=
      ⟨fun _ _ h => h, fun _ _ _ _ => trivial, fun _ _ _ => trivial⟩
    have hsame : product config r path compiledDir { desk with cache := cache' } =
        product config r path compiledDir { desk with cache := cache } :=
      product_eq_of_alike hrel trivial
        (Desk.alike_of_fresh hserves' hserves hents hents' rfl rfl rfl rfl rfl)
    exact hsame
  · simp only [product]
    rcases hplan : (planFile config r path).run { desk with cache := cache } with ⟨c | root, d₁⟩
    · exact fun h => by cases h
    · have hne := compilePlan_ne_uncached hfaith hplan compiledDir
      exact fun h => hne (Option.some.inj h)

theorem product_of_tight_budget :
    let config : Config := { maxFile := .int 60, maxMemory := .int 61 }
    let tight : Desk := ⟨Couple.disk "p" "b.md" [], Couple.cache 60 61, [], [], false, false, 0⟩
    let wide : Desk := ⟨Couple.disk "p" "b.md" [], Couple.cache 60 100, [], [], false, false, 0⟩
    Session.cacheOf config = .ok (Couple.cache 60 61) ∧
    Session.cacheOf { config with maxMemory := .int 100 } = .ok (Couple.cache 60 100) ∧
    Couple.keptBy config tight = ["/p/b.md"] ∧
    Couple.keptBy { config with maxMemory := .int 100 } wide = ["/p/b.md", "/p/a.md"] ∧
    product { config with maxMemory := .int 100 } Sole.registry "a.md" "/p" wide =
      product config Sole.registry "a.md" "/p" tight ∧
    (product config Sole.registry "a.md" "/p" tight).text ≠ some (.error uncached) := by
  refine ⟨rfl, rfl, by decide +kernel, by decide +kernel, ?_⟩
  exact @product_of_budget { maxFile := .int 60, maxMemory := .int 61 } (.int 100) _ _ rfl rfl Sole.registry
    ⟨Couple.disk "p" "b.md" [], Couple.cache 60 61, [], [], false, false, 0⟩ "a.md" "/p"

end Compile

end Transclude
