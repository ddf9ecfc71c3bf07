import Ppdb.ByteMemory
import Ppdb.ErrorCodes

/-!
The loops of `infra_file_read` and `infra_file_write`: a transfer that the
system may interrupt, fail or carry out in parts. A call is run on the list of
answers of the system calls that it makes; it has a result only on a list that
is used up.
-/

namespace Ppdb.FileTransfers

open ByteMemory ErrorCodes

inductive Errno
  | intr
  | other (code : ℤ)
  deriving DecidableEq

/-- What `read` or `write` answers. -/
inductive Answer (α : Type)
  | done (a : α)
  | failed (errno : Errno)
  deriving DecidableEq

def ssizeMax : ℕ := 2 ^ 63 - 1

/-- `write` accepts at most what it is given, `read` delivers at most what is asked for. -/
def Possible (count asked : ℕ) : Prop := count ≤ asked ∧ count ≤ ssizeMax

instance (count asked : ℕ) : Decidable (Possible count asked) :=
  inferInstanceAs (Decidable (count ≤ asked ∧ count ≤ ssizeMax))

/-- What the descriptor receives, and the count unless a call fails for good.
The count never passes `size`, so that it does not wrap around. -/
def writeLoop (m : Mem) (buf size : ℕ) : List (Answer ℕ) → ℕ → Option (List UInt8 × Option ℕ)
  | [], totalWritten => if totalWritten < size then none else some ([], some totalWritten)
  | answer :: rest, totalWritten =>
    if totalWritten < size then
      match answer with
      | .failed .intr => writeLoop m buf size rest totalWritten
      | .failed (.other _) => if rest.isEmpty then some ([], none) else none
      | .done result =>
        if Possible result (size - totalWritten) then
          (writeLoop m buf size rest (totalWritten + result)).map fun r =>
            (loadBytes m (buf + totalWritten) result ++ r.1, r.2)
        else none
    else none

structure Written where
  fd : BitVec 32
  received : List UInt8
  code : ErrorCode
  bytesWritten : Option ℕ

/-- `infra_file_write`. The count is `none` if there is no place for it. -/
def infraFileWrite (handle : BitVec 64) (m : Mem) (buffer size : ℕ) (bytesWritten : Option ℕ)
    (answers : List (Answer ℕ)) : Option Written :=
  if handle = 0 ∨ buffer = 0 ∨ bytesWritten.isNone then
    if answers.isEmpty then some ⟨handle.setWidth 32, [], .invalid, bytesWritten⟩ else none
  else
    match writeLoop m buffer size answers 0 with
    | none => none
    | some (received, none) => some ⟨handle.setWidth 32, received, .io, bytesWritten⟩
    | some (received, some total) => some ⟨handle.setWidth 32, received, .ok, some total⟩

/-- Memory after the loop, and the count unless a call fails for good. -/
def readLoop (buf size : ℕ) : List (Answer (List UInt8)) → ℕ → Mem → Option (Mem × Option ℕ)
  | [], totalRead, m => if totalRead < size then none else some (m, some totalRead)
  | answer :: rest, totalRead, m =>
    if totalRead < size then
      match answer with
      | .failed .intr => readLoop buf size rest totalRead m
      | .failed (.other _) => if rest.isEmpty then some (m, none) else none
      | .done chunk =>
        if Possible chunk.length (size - totalRead) then
          let m := storeBytes m (buf + totalRead) chunk
          -- end of file
          if chunk.length = 0 then
            if rest.isEmpty then some (m, some totalRead) else none
          else readLoop buf size rest (totalRead + chunk.length) m
        else none
    else none

structure Read where
  fd : BitVec 32
  mem : Mem
  code : ErrorCode
  bytesRead : Option ℕ

def infraFileRead (handle : BitVec 64) (m : Mem) (buffer size : ℕ) (bytesRead : Option ℕ)
    (answers : List (Answer (List UInt8))) : Option Read :=
  if handle = 0 ∨ buffer = 0 ∨ bytesRead.isNone then
    if answers.isEmpty then some ⟨handle.setWidth 32, m, .invalid, bytesRead⟩ else none
  else
    match readLoop buffer size answers 0 m with
    | none => none
    | some (m, none) => some ⟨handle.setWidth 32, m, .io, bytesRead⟩
    | some (m, some total) => some ⟨handle.setWidth 32, m, .ok, some total⟩

/-- A call has failed, and not because of a signal. -/
def Fails {α : Type} (answers : List (Answer α)) : Prop := ∃ code, .failed (.other code) ∈ answers

def delivered (answers : List (Answer (List UInt8))) : List UInt8 :=
  answers.flatMap fun
    | .done chunk => chunk
    | .failed _ => []

/-- A write that ends has passed on the whole buffer, or failed without a count. -/
structure WriteRight (handle : BitVec 64) (m : Mem) (buffer size : ℕ) (bytesWritten : Option ℕ)
    (answers : List (Answer ℕ)) (r : Written) : Prop where
  ok : r.code = .ok → r.received = loadBytes m buffer size ∧ r.bytesWritten = some size
  io : r.code = .io ↔ Fails answers
  io_count : r.code = .io → r.bytesWritten = bytesWritten
  fd : r.fd = handle.setWidth 32
  answered : handle ≠ 0 → buffer ≠ 0 → bytesWritten.isSome → r.code = .ok ∨ r.code = .io

/-- A read that ends has filled the buffer with what was delivered, up to its
size or the end of the file, or failed without a count. -/
structure ReadRight (handle : BitVec 64) (m : Mem) (buffer size : ℕ) (bytesRead : Option ℕ)
    (answers : List (Answer (List UInt8))) (r : Read) : Prop where
  ok : r.code = .ok → ∃ n, r.bytesRead = some n ∧ n ≤ size ∧
    loadBytes r.mem buffer n = delivered answers ∧ (n < size → .done [] ∈ answers)
  io : r.code = .io ↔ Fails answers
  io_count : r.code = .io → r.bytesRead = bytesRead
  frame : DiffersWithin m r.mem buffer (buffer + size)
  fd : r.fd = handle.setWidth 32
  answered : handle ≠ 0 → buffer ≠ 0 → bytesRead.isSome → r.code = .ok ∨ r.code = .io

variable {α : Type} {m m' : Mem} {buf buffer size total : ℕ} {handle : BitVec 64}
  {out count : Option ℕ}

/-! ### Failures -/

theorem not_fails_nil : ¬ Fails ([] : List (Answer α)) := by
  rintro ⟨code, hmem⟩
  cases hmem

theorem fails_other (code : ℤ) (rest : List (Answer α)) : Fails (.failed (.other code) :: rest) :=
  ⟨code, List.mem_cons_self⟩

theorem fails_intr_iff {rest : List (Answer α)} : Fails (.failed .intr :: rest) ↔ Fails rest := by
  simp [Fails]

theorem fails_done_iff {a : α} {rest : List (Answer α)} : Fails (.done a :: rest) ↔ Fails rest := by
  simp [Fails]

theorem isEmpty_of_some {β : Type} {l : List α} {x y : β}
    (h : (if l.isEmpty then some x else none) = some y) : l = [] ∧ x = y := by
  cases l with
  | nil => exact ⟨rfl, Option.some.inj h⟩
  | cons a l => cases h

/-! ### Writing -/

/-- Whatever has been received is the buffer from where the loop stands; all of
it if the loop ends with a count. -/
theorem writeLoop_spec {answers : List (Answer ℕ)} {received : List UInt8} (hle : total ≤ size)
    (h : writeLoop m buf size answers total = some (received, out)) :
    (out = none ↔ Fails answers) ∧ ∃ k, received = loadBytes m (buf + total) k ∧
      ∀ n, out = some n → n = size ∧ total + k = size := by
  induction answers generalizing total received with
  | nil =>
    unfold writeLoop at h
    split at h
    · cases h
    · cases h
      refine ⟨iff_of_false (by simp) not_fails_nil, 0, rfl, ?_⟩
      intro n hn
      cases hn
      omega
  | cons answer rest ih =>
    unfold writeLoop at h
    by_cases hmore : total < size
    · rw [if_pos hmore] at h
      cases answer with
      | failed errno =>
        cases errno with
        | intr =>
          obtain ⟨hfails, hall⟩ := ih hle h
          exact ⟨hfails.trans fails_intr_iff.symm, hall⟩
        | other code =>
          obtain ⟨_, heq⟩ := isEmpty_of_some h
          cases heq
          refine ⟨iff_of_true rfl (fails_other code rest), 0, rfl, ?_⟩
          intro n hn
          cases hn
      | done result =>
        dsimp only at h
        by_cases hpossible : Possible result (size - total)
        · rw [if_pos hpossible] at h
          obtain ⟨⟨later, out'⟩, hrest, heq⟩ := Option.map_eq_some_iff.mp h
          cases heq
          have hroom : result ≤ size - total := hpossible.1
          obtain ⟨hfails, k, hlater, hall⟩ := ih (by omega) hrest
          refine ⟨hfails.trans fails_done_iff.symm, result + k, ?_, ?_⟩
          · rw [loadBytes_add, Nat.add_assoc, ← hlater]
          · intro n hn
            obtain ⟨hsize, hend⟩ := hall n hn
            exact ⟨hsize, by omega⟩
        · rw [if_neg hpossible] at h
          cases h
    · rw [if_neg hmore] at h
      cases h

/-- If one of the pointers is null and two are not, it is the third. -/
theorem not_isSome_of_null (hnull : handle = 0 ∨ buffer = 0 ∨ count.isNone) (hhandle : handle ≠ 0)
    (hbuffer : buffer ≠ 0) : ¬ count.isSome := by
  have hnone := (hnull.resolve_left hhandle).resolve_left hbuffer
  rw [Option.isNone_iff_eq_none] at hnone
  simp [hnone]

theorem infraFileWrite_right {answers : List (Answer ℕ)} {r : Written}
    (h : infraFileWrite handle m buffer size count answers = some r) :
    WriteRight handle m buffer size count answers r := by
  unfold infraFileWrite at h
  by_cases hnull : handle = 0 ∨ buffer = 0 ∨ count.isNone
  · rw [if_pos hnull] at h
    obtain ⟨rfl, rfl⟩ := isEmpty_of_some h
    refine ⟨(fun hok => nomatch hok), iff_of_false (by simp) not_fails_nil,
      (fun hio => nomatch hio), rfl, ?_⟩
    exact fun hhandle hbuffer hcount => absurd hcount (not_isSome_of_null hnull hhandle hbuffer)
  · rw [if_neg hnull] at h
    cases hloop : writeLoop m buffer size answers 0 with
    | none =>
      rw [hloop] at h
      cases h
    | some result =>
      obtain ⟨received, out⟩ := result
      rw [hloop] at h
      obtain ⟨hfails, k, hreceived, hall⟩ := writeLoop_spec (Nat.zero_le size) hloop
      cases out with
      | none =>
        cases h
        exact ⟨(fun hok => nomatch hok), iff_of_true rfl (hfails.mp rfl), fun _ => rfl, rfl,
          fun _ _ _ => Or.inr rfl⟩
      | some n =>
        cases h
        obtain ⟨rfl, hend⟩ := hall n rfl
        have hk : k = n := by omega
        subst hk
        refine ⟨fun _ => ⟨hreceived, rfl⟩, iff_of_false (by simp) ?_, (fun hio => nomatch hio), rfl,
          fun _ _ _ => Or.inl rfl⟩
        intro hyes
        cases hfails.mpr hyes

/-! ### Reading -/

theorem delivered_cons (answer : Answer (List UInt8)) (rest : List (Answer (List UInt8))) :
    delivered (answer :: rest) = (match answer with
      | .done chunk => chunk
      | .failed _ => []) ++ delivered rest := List.flatMap_cons

/-- What the loop that starts with `total` bytes in the buffer leaves there: they
stay, and what is delivered comes behind them; short of the size only at the end
of the file. -/
structure Reads (buf size total : ℕ) (answers : List (Answer (List UInt8))) (m m' : Mem)
    (out : Option ℕ) : Prop where
  fails : out = none ↔ Fails answers
  frame : DiffersWithin m m' (buf + total) (buf + size)
  ends : ∀ n, out = some n → n ≤ size ∧ n = total + (delivered answers).length ∧
    loadBytes m' (buf + total) (delivered answers).length = delivered answers ∧
    (n < size → .done [] ∈ answers)

section Reads
variable {answers rest : List (Answer (List UInt8))} {chunk : List UInt8}

/-- The loop ends without another byte. -/
theorem reads_end (hle : total ≤ size) (hfails : ¬ Fails answers) (hempty : delivered answers = [])
    (hend : total < size → .done [] ∈ answers) : Reads buf size total answers m m (some total) := by
  refine ⟨iff_of_false (by simp) hfails, DiffersWithin.refl _ _ _, ?_⟩
  rintro n ⟨rfl⟩
  rw [hempty]
  exact ⟨hle, rfl, rfl, hend⟩

theorem Reads.intr (h : Reads buf size total rest m m' out) :
    Reads buf size total (.failed .intr :: rest) m m' out := by
  refine ⟨h.fails.trans fails_intr_iff.symm, h.frame, ?_⟩
  intro n hn
  obtain ⟨hsize, hcount, hload, hend⟩ := h.ends n hn
  exact ⟨hsize, hcount, hload, fun hlt => List.mem_cons_of_mem _ (hend hlt)⟩

theorem Reads.done (hle : total ≤ size) (hroom : chunk.length ≤ size - total)
    (h : Reads buf size (total + chunk.length) rest (storeBytes m (buf + total) chunk) m' out) :
    Reads buf size total (.done chunk :: rest) m m' out := by
  refine ⟨h.fails.trans fails_done_iff.symm, ?_, ?_⟩
  · have hstored := storeBytes_differs m (buf + total) chunk
    refine (hstored.mono (Nat.le_refl _) ?_).trans (h.frame.mono ?_ (Nat.le_refl _))
    · omega
    · omega
  · intro n hn
    obtain ⟨hsize, hcount, hload, hend⟩ := h.ends n hn
    -- the rest of the loop does not write where the chunk is
    have hchunk : loadBytes m' (buf + total) chunk.length = chunk := by
      rw [loadBytes_congr (h.frame.agreeOn (Or.inl (by omega))), loadBytes_storeBytes]
    have hcons : delivered (.done chunk :: rest) = chunk ++ delivered rest := delivered_cons _ _
    rw [hcons, List.length_append, loadBytes_add, hchunk, Nat.add_assoc, hload]
    exact ⟨hsize, by omega, rfl, fun hlt => List.mem_cons_of_mem _ (hend hlt)⟩

theorem readLoop_spec (hle : total ≤ size)
    (h : readLoop buf size answers total m = some (m', out)) :
    Reads buf size total answers m m' out := by
  induction answers generalizing total m with
  | nil =>
    unfold readLoop at h
    split at h
    · cases h
    · rename_i hfull
      cases h
      exact reads_end hle not_fails_nil rfl fun hlt => absurd hlt hfull
  | cons answer rest ih =>
    unfold readLoop at h
    by_cases hmore : total < size
    · rw [if_pos hmore] at h
      cases answer with
      | failed errno =>
        cases errno with
        | intr => exact (ih hle h).intr
        | other code =>
          obtain ⟨_, heq⟩ := isEmpty_of_some h
          cases heq
          exact ⟨iff_of_true rfl (fails_other code rest), DiffersWithin.refl _ _ _,
            fun n hn => nomatch hn⟩
      | done chunk =>
        dsimp only at h
        by_cases hpossible : Possible chunk.length (size - total)
        · rw [if_pos hpossible] at h
          by_cases heof : chunk.length = 0
          · rw [if_pos heof] at h
            obtain ⟨rfl, heq⟩ := isEmpty_of_some h
            obtain rfl := List.length_eq_zero_iff.mp heof
            cases heq
            exact reads_end hle (mt fails_done_iff.mp not_fails_nil) rfl
              fun _ => List.mem_cons_self
          · rw [if_neg heof] at h
            have hroom : chunk.length ≤ size - total := hpossible.1
            exact (ih (by omega) h).done hle hroom
        · rw [if_neg hpossible] at h
          cases h
    · rw [if_neg hmore] at h
      cases h

end Reads

theorem infraFileRead_right {answers : List (Answer (List UInt8))} {r : Read}
    (h : infraFileRead handle m buffer size count answers = some r) :
    ReadRight handle m buffer size count answers r := by
  unfold infraFileRead at h
  by_cases hnull : handle = 0 ∨ buffer = 0 ∨ count.isNone
  · rw [if_pos hnull] at h
    obtain ⟨rfl, rfl⟩ := isEmpty_of_some h
    refine ⟨(fun hok => nomatch hok), iff_of_false (by simp) not_fails_nil,
      (fun hio => nomatch hio), DiffersWithin.refl _ _ _, rfl, ?_⟩
    exact fun hhandle hbuffer hcount => absurd hcount (not_isSome_of_null hnull hhandle hbuffer)
  · rw [if_neg hnull] at h
    cases hloop : readLoop buffer size answers 0 m with
    | none =>
      rw [hloop] at h
      cases h
    | some result =>
      obtain ⟨m', out⟩ := result
      rw [hloop] at h
      obtain ⟨hfails, hframe, hall⟩ := readLoop_spec (Nat.zero_le size) hloop
      cases out with
      | none =>
        cases h
        exact ⟨(fun hok => nomatch hok), iff_of_true rfl (hfails.mp rfl), fun _ => rfl, hframe, rfl,
          fun _ _ _ => Or.inr rfl⟩
      | some n =>
        cases h
        obtain ⟨hsize, hcount, hload, hend⟩ := hall n rfl
        have hn : n = (delivered answers).length := by omega
        refine ⟨fun _ => ⟨n, rfl, hsize, ?_, hend⟩, iff_of_false (by simp) ?_,
          (fun hio => nomatch hio), hframe, rfl, fun _ _ _ => Or.inl rfl⟩
        · rw [hn]
          exact hload
        · intro hyes
          cases hfails.mpr hyes

/-- Whatever the system calls answer: a write that ends has passed on the buffer
once and in order, a read that ends has stored what was delivered, and both
report exactly the failures that are none of a signal. -/
theorem transfers_right (handle : BitVec 64) (m : Mem) (buffer size : ℕ) (count : Option ℕ) :
    (∀ answers r, infraFileWrite handle m buffer size count answers = some r →
      WriteRight handle m buffer size count answers r) ∧
    ∀ answers r, infraFileRead handle m buffer size count answers = some r →
      ReadRight handle m buffer size count answers r :=
  ⟨fun _ _ => infraFileWrite_right, fun _ _ => infraFileRead_right⟩

/-- Three bytes, one of them at first, the rest after an interruption; and a
file of two bytes. -/
theorem transfers_right_parts :
    (∃ w, infraFileWrite 3 (fun a => UInt8.ofNat a) 100 3 (some 0)
        [.done 1, .failed .intr, .done 2] = some w ∧ w.received = [100, 101, 102]) ∧
    ∃ r, infraFileRead 3 (fun _ => 0) 100 3 (some 0) [.done [7], .failed .intr, .done [8], .done []] =
        some r ∧ ∃ n, r.bytesRead = some n ∧ loadBytes r.mem 100 n = [7, 8] := by
  constructor
  · obtain ⟨w, hw, hok⟩ : ∃ w, infraFileWrite 3 (fun a => UInt8.ofNat a) 100 3 (some 0)
        [.done 1, .failed .intr, .done 2] = some w ∧ w.code = .ok := ⟨_, rfl, rfl⟩
    have hright := (transfers_right 3 (fun a => UInt8.ofNat a) 100 3 (some 0)).1 _ _ hw
    exact ⟨w, hw, (hright.ok hok).1⟩
  · obtain ⟨r, hr, hok⟩ : ∃ r, infraFileRead 3 (fun _ => 0) 100 3 (some 0)
        [.done [7], .failed .intr, .done [8], .done []] = some r ∧ r.code = .ok := ⟨_, rfl, rfl⟩
    have hright := (transfers_right 3 (fun _ => 0) 100 3 (some 0)).2 _ _ hr
    obtain ⟨n, hn, _, hload, _⟩ := hright.ok hok
    exact ⟨r, hr, n, hn, hload⟩

end Ppdb.FileTransfers
