import Mathlib.Data.List.Basic

/-!
Lists cut after each element of a kind, as a text is cut into lines that keep
their line ends. A cut distributes over an append whose first part is closed,
and all else follows from that.
-/

namespace Ppdb.TerminatedPieces

variable {α : Type} (p : α → Bool)

def pushHead (x : α) : List (List α) → List (List α)
  | [] => [[x]]
  | l :: ls => (x :: l) :: ls

/-- A piece ends after each element that satisfies `p`. -/
def splitAfter : List α → List (List α)
  | [] => []
  | x :: xs => if p x then [x] :: splitAfter xs else pushHead x (splitAfter xs)

/-- No piece is left open at the end. -/
def Closed (xs : List α) : Prop := ∀ x ∈ xs.getLast?, p x = true

instance (xs : List α) : Decidable (Closed p xs) :=
  inferInstanceAs (Decidable (∀ x ∈ xs.getLast?, p x = true))

def IsPiece (l : List α) : Prop := ∃ body x, l = body ++ [x] ∧ p x = true ∧ ∀ y ∈ body, p y = false

def close (t : α) (xs : List α) : List α := if Closed p xs then xs else xs ++ [t]

variable {p} {x : α} {xs ys l : List α} {ls : List (List α)}

@[simp] theorem flatten_pushHead (x : α) (ls : List (List α)) :
    (pushHead x ls).flatten = x :: ls.flatten := by
  cases ls <;> rfl

theorem pushHead_append (x : α) (ls' : List (List α)) (h : ls ≠ []) :
    pushHead x (ls ++ ls') = pushHead x ls ++ ls' := by
  cases ls with
  | nil => exact absurd rfl h
  | cons l ls => rfl

@[simp] theorem splitAfter_nil : splitAfter p [] = [] := rfl

theorem splitAfter_of_end (hx : p x = true) : splitAfter p (x :: xs) = [x] :: splitAfter p xs :=
  if_pos hx

theorem splitAfter_of_body (hx : p x = false) :
    splitAfter p (x :: xs) = pushHead x (splitAfter p xs) :=
  if_neg (by simp [hx])

/-- The pieces are those of the list, in order. -/
@[simp] theorem flatten_splitAfter (xs : List α) : (splitAfter p xs).flatten = xs := by
  induction xs with
  | nil => rfl
  | cons x xs ih =>
    cases hx : p x with
    | true => rw [splitAfter_of_end hx, List.flatten_cons, ih, List.singleton_append]
    | false => rw [splitAfter_of_body hx, flatten_pushHead, ih]

theorem splitAfter_ne_nil (h : xs ≠ []) : splitAfter p xs ≠ [] := by
  intro hnil
  apply h
  rw [← flatten_splitAfter (p := p) xs, hnil, List.flatten_nil]

@[simp] theorem closed_nil : Closed p [] := fun _ hx => (nomatch hx)

theorem closed_concat : Closed p (xs ++ [x]) ↔ p x = true := by
  simp [Closed]

theorem Closed.tail (h : Closed p (x :: xs)) : Closed p xs := by
  cases xs with
  | nil => exact closed_nil
  | cons y ys =>
    unfold Closed at h ⊢
    rwa [List.getLast?_cons_cons] at h

theorem Closed.append (hx : Closed p xs) (hy : Closed p ys) : Closed p (xs ++ ys) := by
  intro x hmem
  rw [List.getLast?_append] at hmem
  cases hlast : ys.getLast? with
  | none =>
    rw [hlast] at hmem
    exact hx x hmem
  | some y =>
    rw [hlast] at hmem
    exact hy x (hlast ▸ hmem)

theorem closed_flatten (h : ∀ l ∈ ls, Closed p l) : Closed p ls.flatten := by
  induction ls with
  | nil => exact closed_nil
  | cons l ls ih =>
    rw [List.flatten_cons]
    exact (h l List.mem_cons_self).append (ih fun m hm => h m (List.mem_cons_of_mem _ hm))

theorem IsPiece.closed (h : IsPiece p l) : Closed p l := by
  obtain ⟨body, x, rfl, hx, _⟩ := h
  exact closed_concat.mpr hx

theorem IsPiece.ne_nil (h : IsPiece p l) : l ≠ [] := by
  obtain ⟨body, x, rfl, _⟩ := h
  exact List.append_ne_nil_of_right_ne_nil _ (List.cons_ne_nil x [])

/-- What follows a closed list is cut on its own. -/
theorem splitAfter_append (h : Closed p xs) :
    splitAfter p (xs ++ ys) = splitAfter p xs ++ splitAfter p ys := by
  induction xs with
  | nil => rfl
  | cons x xs ih =>
    cases hx : p x with
    | true =>
      rw [List.cons_append, splitAfter_of_end hx, splitAfter_of_end hx, ih h.tail, List.cons_append]
    | false =>
      have hne : xs ≠ [] := by
        rintro rfl
        have hend : p x = true := h x rfl
        rw [hx] at hend
        cases hend
      rw [List.cons_append, splitAfter_of_body hx, splitAfter_of_body hx, ih h.tail,
        pushHead_append x _ (splitAfter_ne_nil hne)]

theorem splitAfter_piece (h : IsPiece p l) : splitAfter p l = [l] := by
  obtain ⟨body, x, rfl, hx, hbody⟩ := h
  induction body with
  | nil => exact splitAfter_of_end hx
  | cons y body ih =>
    have hy : p y = false := hbody y List.mem_cons_self
    rw [List.cons_append, splitAfter_of_body hy, ih fun z hz => hbody z (List.mem_cons_of_mem _ hz)]
    rfl

/-- Whole pieces put together are found again. -/
theorem splitAfter_flatten (h : ∀ l ∈ ls, IsPiece p l) : splitAfter p ls.flatten = ls := by
  induction ls with
  | nil => rfl
  | cons l ls ih =>
    have hl : IsPiece p l := h l List.mem_cons_self
    rw [List.flatten_cons, splitAfter_append hl.closed, splitAfter_piece hl,
      ih fun m hm => h m (List.mem_cons_of_mem _ hm), List.singleton_append]

theorem IsPiece.cons (h : IsPiece p l) (hx : p x = false) : IsPiece p (x :: l) := by
  obtain ⟨body, y, rfl, hy, hbody⟩ := h
  refine ⟨x :: body, y, rfl, hy, ?_⟩
  intro z hz
  rcases List.mem_cons.mp hz with rfl | hz
  · exact hx
  · exact hbody z hz

theorem isPiece_singleton (hx : p x = true) : IsPiece p [x] :=
  ⟨[], x, rfl, hx, fun _ hy => (nomatch hy)⟩

/-- A closed list is cut into whole pieces. -/
theorem isPiece_of_mem (h : Closed p xs) : ∀ l ∈ splitAfter p xs, IsPiece p l := by
  induction xs with
  | nil => exact fun _ hl => (nomatch hl)
  | cons x xs ih =>
    intro l hl
    cases hx : p x with
    | true =>
      rw [splitAfter_of_end hx] at hl
      rcases List.mem_cons.mp hl with rfl | hl
      · exact isPiece_singleton hx
      · exact ih h.tail l hl
    | false =>
      rw [splitAfter_of_body hx] at hl
      cases hsplit : splitAfter p xs with
      | nil =>
        -- the list is the one element, which is no terminator
        have hxs : xs = [] := by rw [← flatten_splitAfter (p := p) xs, hsplit, List.flatten_nil]
        rw [hxs] at h
        have hend : p x = true := h x rfl
        rw [hx] at hend
        cases hend
      | cons m ls =>
        rw [hsplit, pushHead] at hl
        rw [hsplit] at ih
        rcases List.mem_cons.mp hl with rfl | hl
        · exact (ih h.tail m List.mem_cons_self).cons hx
        · exact ih h.tail l (List.mem_cons_of_mem _ hl)

/-- A list is a closed part and a piece left open behind it. -/
theorem exists_open (p : α → Bool) (xs : List α) :
    ∃ ws body, xs = ws ++ body ∧ Closed p ws ∧ ∀ y ∈ body, p y = false := by
  induction xs with
  | nil => exact ⟨[], [], rfl, closed_nil, fun _ hy => (nomatch hy)⟩
  | cons x xs ih =>
    obtain ⟨ws, body, rfl, hclosed, hbody⟩ := ih
    by_cases hend : ws = [] ∧ p x = false
    · obtain ⟨rfl, hx⟩ := hend
      exact ⟨[], x :: body, rfl, closed_nil, List.forall_mem_cons.mpr ⟨hx, hbody⟩⟩
    · refine ⟨x :: ws, body, rfl, ?_, hbody⟩
      cases ws with
      | nil => simpa [Closed] using hend
      | cons y ws =>
        unfold Closed at hclosed ⊢
        rwa [List.getLast?_cons_cons]

/-- An open piece is no whole one. -/
theorem filter_splitAfter_open (h : ∀ y ∈ xs, p y = false) :
    (splitAfter p xs).filter (fun l => l.getLast?.any p) = [] := by
  cases xs with
  | nil => rfl
  | cons x xs =>
    have hone : splitAfter p (x :: xs) = [x :: xs] := by
      induction xs generalizing x with
      | nil => exact splitAfter_of_body (h x List.mem_cons_self)
      | cons y xs ih =>
        obtain ⟨hx, hxs⟩ := List.forall_mem_cons.mp h
        rw [splitAfter_of_body hx, ih y hxs]
        rfl
    have hlast : (x :: xs).getLast?.any p = false := by
      rw [List.getLast?_eq_some_getLast (List.cons_ne_nil x xs)]
      exact h _ (List.getLast_mem _)
    rw [hone, List.filter_cons_of_neg (by rw [hlast]; exact Bool.false_ne_true), List.filter_nil]

/-- An open piece takes what follows up to the next terminator. -/
theorem splitAfter_of_open (h : ∀ y ∈ xs, p y = false) (hx : p x = false) (ys : List α) :
    ∃ l ls, splitAfter p (xs ++ x :: ys) = l :: ls ∧ x ∈ l := by
  induction xs with
  | nil =>
    rw [List.nil_append, splitAfter_of_body hx]
    cases splitAfter p ys with
    | nil => exact ⟨[x], [], rfl, List.mem_cons_self⟩
    | cons l ls => exact ⟨x :: l, ls, rfl, List.mem_cons_self⟩
  | cons y xs ih =>
    obtain ⟨hy, hxs⟩ := List.forall_mem_cons.mp h
    obtain ⟨l, ls, hsplit, hmem⟩ := ih hxs
    refine ⟨y :: l, ls, ?_, List.mem_cons_of_mem y hmem⟩
    rw [List.cons_append, splitAfter_of_body hy, hsplit]
    rfl

/-- In front of the piece with `x` are the whole pieces of what precedes `x`. -/
theorem splitAfter_before (hx : p x = false) (xs ys : List α) :
    ∃ l ls, splitAfter p (xs ++ x :: ys) =
      ((splitAfter p xs).filter fun l => l.getLast?.any p) ++ l :: ls ∧ x ∈ l := by
  obtain ⟨ws, body, rfl, hclosed, hbody⟩ := exists_open p xs
  obtain ⟨l, ls, hsplit, hmem⟩ := splitAfter_of_open hbody hx ys
  have hwhole : (splitAfter p ws).filter (fun l => l.getLast?.any p) = splitAfter p ws := by
    refine List.filter_eq_self.mpr fun m hm => ?_
    obtain ⟨front, y, rfl, hy, _⟩ := isPiece_of_mem hclosed m hm
    rw [List.getLast?_concat]
    exact hy
  refine ⟨l, ls, ?_, hmem⟩
  rw [List.append_assoc, splitAfter_append hclosed, splitAfter_append hclosed, List.filter_append,
    hwhole, filter_splitAfter_open hbody, List.append_nil, hsplit]

theorem closed_close {t : α} (ht : p t = true) (xs : List α) : Closed p (close p t xs) := by
  unfold close
  split_ifs with h
  · exact h
  · exact closed_concat.mpr ht

end Ppdb.TerminatedPieces
