import Mathlib.Data.List.Basic

/-!
Lists of pieces that tile an interval: the first piece starts at the lower
end, every piece starts where the one before it stops, and the last one stops
at the upper end. Pieces of positive extent are then pairwise apart, and a
run of pieces may be exchanged for any other that tiles the same stretch.
-/

namespace Ppdb.TiledIntervals

variable {β : Type*} (start stop : β → ℕ)

def Tiles (hi : ℕ) : ℕ → List β → Prop
  | lo, [] => lo = hi
  | lo, b :: rest => start b = lo ∧ Tiles hi (stop b) rest

variable {start stop} {lo hi : ℕ}

@[simp] theorem tiles_nil : Tiles start stop hi lo [] ↔ lo = hi := Iff.rfl

@[simp] theorem tiles_cons {b : β} {rest : List β} :
    Tiles start stop hi lo (b :: rest) ↔ start b = lo ∧ Tiles start stop hi (stop b) rest :=
  Iff.rfl

/-- Two tilings of adjacent intervals join, and every tiling arises so. -/
theorem tiles_append {as bs : List β} :
    Tiles start stop hi lo (as ++ bs) ↔
      ∃ mid, Tiles start stop mid lo as ∧ Tiles start stop hi mid bs := by
  induction as generalizing lo with
  | nil => simp
  | cons a rest ih =>
    simp only [List.cons_append, tiles_cons, ih]
    constructor
    · rintro ⟨hstart, mid, hrest, hbs⟩
      exact ⟨mid, ⟨hstart, hrest⟩, hbs⟩
    · rintro ⟨mid, ⟨hstart, hrest⟩, hbs⟩
      exact ⟨hstart, mid, hrest, hbs⟩

theorem Tiles.le {bs : List β} (h : Tiles start stop hi lo bs)
    (hpos : ∀ b ∈ bs, start b ≤ stop b) : lo ≤ hi := by
  induction bs generalizing lo with
  | nil => exact Nat.le_of_eq h
  | cons b rest ih =>
    have hb := hpos b List.mem_cons_self
    have hrest := ih h.2 (fun c hc => hpos c (List.mem_cons_of_mem b hc))
    have hstart : start b = lo := h.1
    omega

/-- Every piece lies in the tiled interval. -/
theorem Tiles.mem_bounds {bs : List β} (h : Tiles start stop hi lo bs)
    (hpos : ∀ b ∈ bs, start b ≤ stop b) {b : β} (hb : b ∈ bs) : lo ≤ start b ∧ stop b ≤ hi := by
  induction bs generalizing lo with
  | nil => simp at hb
  | cons c rest ih =>
    have hrestPos : ∀ d ∈ rest, start d ≤ stop d := fun d hd => hpos d (List.mem_cons_of_mem c hd)
    have hc := hpos c List.mem_cons_self
    have hstart : start c = lo := h.1
    rcases List.mem_cons.mp hb with rfl | hb
    · exact ⟨Nat.le_of_eq hstart.symm, h.2.le hrestPos⟩
    · have hrest := ih h.2 hrestPos hb
      omega

/-- Pieces listed earlier lie below the pieces listed later. -/
theorem Tiles.pairwise {bs : List β} (h : Tiles start stop hi lo bs)
    (hpos : ∀ b ∈ bs, start b ≤ stop b) : bs.Pairwise (fun b c => stop b ≤ start c) := by
  induction bs generalizing lo with
  | nil => exact List.Pairwise.nil
  | cons b rest ih =>
    have hrestPos : ∀ d ∈ rest, start d ≤ stop d := fun d hd => hpos d (List.mem_cons_of_mem b hd)
    exact List.pairwise_cons.mpr
      ⟨fun c hc => (h.2.mem_bounds hrestPos hc).1, ih h.2 hrestPos⟩

/-- A run of pieces may be exchanged for another tiling of its stretch. -/
theorem Tiles.exchange {pre old new post : List β}
    (h : Tiles start stop hi lo (pre ++ old ++ post))
    (hnew : ∀ a b, Tiles start stop b a old → Tiles start stop b a new) :
    Tiles start stop hi lo (pre ++ new ++ post) := by
  obtain ⟨mid', hfront, hpost⟩ := tiles_append.mp h
  obtain ⟨mid, hpre, hold⟩ := tiles_append.mp hfront
  exact tiles_append.mpr ⟨mid', tiles_append.mpr ⟨mid, hpre, hnew mid mid' hold⟩, hpost⟩

end Ppdb.TiledIntervals
