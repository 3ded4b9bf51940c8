import Transclude.Directive.Reading
import Transclude.Proofs.Blocks

/-!
# Fragments tile a document

Reading a document cuts it into stretches of text and blocks, one after another and with nothing between them
(`Portion.Tile`). So no character before the place where the scan stops is lost or taken twice (`ofText_tiles`).
-/

namespace Transclude

open List

inductive Portion where
  | span (s : Span)
  | block (b : Block) (reading : Except Refusal Directive)

namespace Portion

def start : Portion → Nat
  | .span s => s.start
  | .block b _ => b.start

def stop : Portion → Nat
  | .span s => s.start + s.length
  | .block b _ => b.stop

def text (cs : List Char) : Portion → List Char
  | .span s => s.of cs
  | .block b _ => (cs.drop b.start).take (b.stop - b.start)

def fragments : Portion → List Fragment
  | .span s => [.span s]
  | .block _ (.ok d) => [.directive d]
  | .block _ (.error _) => []

def refusals : Portion → List Refusal
  | .block _ (.error r) => [r]
  | _ => []

def block? : Portion → Option Block
  | .span _ => none
  | .block b _ => some b

/-! ## Tiles -/

structure Tile (cs : List Char) (position stop : Nat) (portions : List Portion) : Prop where
  text : portions.flatMap (Portion.text cs) = (cs.drop position).take (stop - position)
  inside : ∀ p ∈ portions, position ≤ p.start ∧ p.start < p.stop ∧ p.stop ≤ stop
  apart : portions.Pairwise fun p q => p.stop ≤ q.start

def gap (position stop : Nat) : List Portion :=
  if position < stop then [.span { start := position, length := stop - position }] else []

def list (position stop : Nat) : List (Block × Except Refusal Directive) → List Portion
  | [] => gap position stop
  | (b, reading) :: rest => gap position b.start ++ .block b reading :: list b.stop stop rest

section Tiles

variable {cs : List Char} {a b c : Nat} {ps qs : List Portion}

theorem Tile.append (hp : Tile cs a b ps) (hq : Tile cs b c qs) (hab : a ≤ b) (hbc : b ≤ c) :
    Tile cs a c (ps ++ qs) where
  text := by
    have h : c - a = (b - a) + (c - b) := by omega
    rw [flatMap_append, hp.text, hq.text, h, take_add, drop_drop, Nat.add_sub_cancel' hab]
  inside p h := by
    rcases mem_append.1 h with h | h
    · obtain ⟨h₁, h₂, h₃⟩ := hp.inside p h
      exact ⟨h₁, h₂, h₃.trans hbc⟩
    · obtain ⟨h₁, h₂, h₃⟩ := hq.inside p h
      exact ⟨hab.trans h₁, h₂, h₃⟩
  apart := by
    refine pairwise_append.2 ⟨hp.apart, hq.apart, fun p h q h' => ?_⟩
    exact (hp.inside p h).2.2.trans (hq.inside q h').1

theorem tile_gap (h : a ≤ b) : Tile cs a b (gap a b) := by
  rw [gap]
  split
  · refine ⟨?_, ?_, pairwise_singleton ..⟩
    · simp [Portion.text, Span.of]
    · simp only [mem_singleton, forall_eq, start, stop]
      omega
  · have : b - a = 0 := by omega
    exact ⟨by simp [this], by simp, List.Pairwise.nil⟩

theorem tile_block (x : Block) (reading : Except Refusal Directive) (h : x.start < x.stop) :
    Tile cs x.start x.stop [.block x reading] :=
  ⟨by simp [Portion.text], by simpa [start, stop] using h, pairwise_singleton ..⟩

theorem tile_list (cs : List Char) {position stop : Nat} (readings : List (Block × Except Refusal Directive))
    (h : Block.Chained position stop (readings.map Prod.fst)) :
    position ≤ stop ∧ Tile cs position stop (list position stop readings) := by
  induction readings generalizing position with
  | nil => exact ⟨h, tile_gap h⟩
  | cons x rest ih =>
    obtain ⟨x, reading⟩ := x
    obtain ⟨h₁, h₂, h₃⟩ := h
    obtain ⟨hle, htile⟩ := ih h₃
    have hrest := (tile_block x reading h₂).append htile h₂.le hle
    exact ⟨h₁.trans (h₂.le.trans hle), (tile_gap h₁).append hrest h₁ (h₂.le.trans hle)⟩

end Tiles

theorem filterMap_block?_list (position stop : Nat) (readings : List (Block × Except Refusal Directive)) :
    (list position stop readings).filterMap block? = readings.map Prod.fst := by
  have hgap : ∀ a b, (gap a b).filterMap block? = [] := by
    intro a b
    rw [gap]
    split <;> rfl
  induction readings generalizing position with
  | nil => exact hgap ..
  | cons x rest ih => simp [list, hgap, block?, ih]

theorem mem_list_block {position stop : Nat} {readings : List (Block × Except Refusal Directive)}
    {b : Block} {reading : Except Refusal Directive}
    (h : .block b reading ∈ list position stop readings) : (b, reading) ∈ readings := by
  have hgap : ∀ a c, .block b reading ∉ gap a c := by
    intro a c
    rw [gap]
    split <;> simp
  induction readings generalizing position with
  | nil => exact absurd h (hgap _ _)
  | cons x rest ih =>
    rw [list, mem_append, mem_cons] at h
    rcases h with h | h | h
    · exact absurd h (hgap _ _)
    · cases h
      exact mem_cons_self
    · exact mem_cons_of_mem _ (ih h)

end Portion

/-! ## Reading blocks -/

namespace Fragment

theorem ofBlocks_spanTo_eq (position stop : Nat) :
    ofBlocks.spanTo position stop = (Portion.gap position stop).flatMap Portion.fragments := by
  rw [ofBlocks.spanTo, Portion.gap]
  split <;> rfl

theorem refusals_gap (position stop : Nat) : (Portion.gap position stop).flatMap Portion.refusals = [] := by
  rw [Portion.gap]
  split <;> rfl

theorem ofBlocks_eq_or (cwd : Path) (baseDir : String) (position stop : Nat) (blocks : List Block) :
    (∃ b ∈ blocks, ∃ crash, Directive.read cwd baseDir b.raw = .error crash ∧
      ofBlocks cwd baseDir position stop blocks = .error crash) ∨
    ∃ readings : List (Block × Except Refusal Directive), readings.map Prod.fst = blocks ∧
      (∀ x ∈ readings, Directive.read cwd baseDir x.1.raw = .ok x.2) ∧
      ofBlocks cwd baseDir position stop blocks = .ok ((Portion.list position stop readings).flatMap Portion.fragments,
          (Portion.list position stop readings).flatMap Portion.refusals) := by
  induction blocks generalizing position with
  | nil =>
    refine Or.inr ⟨[], rfl, by simp, ?_⟩
    rw [ofBlocks, Portion.list, ofBlocks_spanTo_eq, refusals_gap]
  | cons b rest ih =>
    cases hb : Directive.read cwd baseDir b.raw with
    | error crash =>
      refine Or.inl ⟨b, mem_cons_self, crash, hb, ?_⟩
      rw [ofBlocks, hb]
      rfl
    | ok reading =>
      rcases ih b.stop with ⟨x, hx, crash, hc, he⟩ | ⟨readings, hr, hread, he⟩
      · refine Or.inl ⟨x, mem_cons_of_mem _ hx, crash, hc, ?_⟩
        rw [ofBlocks, hb, he]
        rfl
      · refine Or.inr ⟨(b, reading) :: readings, by rw [map_cons, hr], ?_, ?_⟩
        · rintro x hx
          rcases mem_cons.1 hx with rfl | hx
          · exact hb
          · exact hread x hx
        · rw [ofBlocks, hb, he, ofBlocks_spanTo_eq, Portion.list, flatMap_append, flatMap_append, refusals_gap]
          cases reading <;> rfl

/-- Unless the reading of a block crashes, the stretches and blocks make up the text before the place where the scan
stops, in order and without overlap. The spans are the stretches, the directives what was read in blocks, and the
other blocks leave what is wrong with them. The scan stops at the end, or at an opening fence that is never closed. -/
theorem ofText_tiles (cwd : Path) (baseDir : String) (cs : List Char) :
    let scan := Block.all cs
    scan.stop cs ≤ cs.length ∧
    (match scan.unclosed with
      | none => scan.stop cs = cs.length
      | some u => scan.stop cs = u ∧ Block.UnclosedAt cs u) ∧
    ((∃ b ∈ scan.blocks, ∃ crash, Directive.read cwd baseDir b.raw = .error crash ∧
        ofText cwd baseDir cs = .error crash) ∨
      ∃ portions : List Portion, portions.flatMap (Portion.text cs) = cs.take (scan.stop cs) ∧
        (∀ p ∈ portions, p.start < p.stop ∧ p.stop ≤ scan.stop cs) ∧
        (portions.Pairwise fun p q => p.stop ≤ q.start) ∧
        portions.filterMap Portion.block? = scan.blocks ∧
        (∀ b reading, .block b reading ∈ portions → Directive.read cwd baseDir b.raw = .ok reading) ∧
        ofText cwd baseDir cs = .ok (portions.flatMap Portion.fragments,
          (if scan.unclosed.isSome then [.unclosed] else []) ++ portions.flatMap Portion.refusals)) := by
  intro scan
  have hcovers := Block.all_covers cs
  refine ⟨hcovers.stop_le, ?_, ?_⟩
  · split
    · rename_i h
      rw [Block.Scan.stop, h]
      rfl
    · rename_i u h
      rw [Block.Scan.stop, h]
      exact ⟨rfl, hcovers.unclosed u h⟩
  · rcases ofBlocks_eq_or cwd baseDir 0 (scan.stop cs) scan.blocks with
      ⟨b, hb, crash, hc, he⟩ | ⟨readings, hr, hread, he⟩
    · refine Or.inl ⟨b, hb, crash, hc, ?_⟩
      rw [ofText, he]
      rfl
    · have htile := (Portion.tile_list cs readings (hr ▸ hcovers.chained)).2
      refine Or.inr ⟨Portion.list 0 (scan.stop cs) readings, ?_, ?_, htile.apart, ?_, ?_, ?_⟩
      · simpa using htile.text
      · intro p hp
        exact (htile.inside p hp).2
      · rw [Portion.filterMap_block?_list, hr]
      · intro b reading h
        exact hread _ (Portion.mem_list_block h)
      · rw [ofText, he]
        rfl

end Fragment

end Transclude
