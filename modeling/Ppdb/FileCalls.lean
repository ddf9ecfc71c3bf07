import Ppdb.FileTransfers
import Ppdb.OpenFiles

/-!
The file functions on an open file. The system carries out each transfer in
pieces of any length, interrupts it, and fails where it likes; the functions
make of it one transfer, or a part of one when they fail. What has been written
is read back, whatever other calls come in between.
-/

namespace Ppdb.FileCalls

open ByteMemory ErrorCodes FileTransfers OpenFiles

/-- The file behind the descriptor after the answers to `write`: each takes its
piece of the buffer. -/
def afterWrites (m : Mem) (buf : ℕ) : List (Answer ℕ) → ℕ → File → File
  | [], _, f => f
  | .failed _ :: rest, total, f => afterWrites m buf rest total f
  | .done n :: rest, total, f =>
    afterWrites m buf rest (total + n) (f.put (loadBytes m (buf + total) n))

/-- The answers to `read` are those that the file gives, one after another. -/
def FromFile : List (Answer (List UInt8)) → ℕ → File → Prop
  | [], _, _ => True
  | .failed _ :: rest, n, f => FromFile rest n f
  | .done chunk :: rest, n, f =>
    Delivers f n chunk ∧ FromFile rest (n - chunk.length) (f.moveTo (f.pos + chunk.length))

/-- `lseek`, which answers -1 where there is no such position or the system refuses. -/
def lseek (f : File) (offset : ℤ) (whence : Whence) (granted : Bool) : File × ℤ :=
  match f.seek offset whence, granted with
  | some p, true => (f.moveTo p, p)
  | _, _ => (f, -1)

def osWhence : ℤ → Option Whence
  | 0 => some .set
  | 1 => some .cur
  | 2 => some .fromEnd
  | _ => none

def infraFileSeek (handle : BitVec 64) (f : File) (offset whence : ℤ) (granted : Bool) :
    File × ErrorCode :=
  if handle = 0 then (f, .invalid)
  else
    match osWhence whence with
    | none => (f, .invalid)
    | some w =>
      match lseek f offset w granted with
      | (f, target) => if target = -1 then (f, .io) else (f, .ok)

/-- `infra_file_size`, with whether each of its three calls is granted. The size
is `none` if there is no place for it. -/
def infraFileSize (handle : BitVec 64) (f : File) (size : Option ℕ) (granted : Bool × Bool × Bool) :
    File × ErrorCode × Option ℕ :=
  if handle = 0 ∨ size.isNone then (f, .invalid, size)
  else
    match lseek f 0 .cur granted.1 with
    | (f, current) =>
      if current = -1 then (f, .io, size)
      else
        match lseek f 0 .fromEnd granted.2.1 with
        | (f, last) =>
          if last = -1 then (f, .io, size)
          else
            match lseek f current .set granted.2.2 with
            | (f, back) => if back = -1 then (f, .io, size) else (f, .ok, some last.toNat)

/-- A call, with the caller's memory where there is a buffer. The last argument
is what stands in the place for the count or the size, `none` if there is no place. -/
inductive Request
  | write (m : Mem) (buffer size : ℕ) (bytesWritten : Option ℕ)
  | read (m : Mem) (buffer size : ℕ) (bytesRead : Option ℕ)
  | seek (offset whence : ℤ)
  | size (size : Option ℕ)

/-- What comes back: the code, what stands in the place for the count or the
size, and the caller's memory if the call may write to it. -/
structure Reply where
  code : ErrorCode
  count : Option ℕ
  mem : Option Mem

def Request.unchanged : Request → ErrorCode → Reply
  | .write _ _ _ count, code => ⟨code, count, none⟩
  | .read m _ _ count, code => ⟨code, count, some m⟩
  | .seek _ _, code => ⟨code, none, none⟩
  | .size count, code => ⟨code, count, none⟩

/-- A call on the file, whatever the system makes of it. -/
inductive Performed (handle : BitVec 64) (f : File) : Request → Reply → File → Prop
  | write {m : Mem} {buffer size : ℕ} {count : Option ℕ} {answers : List (Answer ℕ)} {r : Written}
      (h : infraFileWrite handle m buffer size count answers = some r) :
      Performed handle f (.write m buffer size count) ⟨r.code, r.bytesWritten, none⟩
        (afterWrites m buffer answers 0 f)
  | read {m : Mem} {buffer size : ℕ} {count : Option ℕ} {answers : List (Answer (List UInt8))}
      {r : Read} (h : infraFileRead handle m buffer size count answers = some r)
      (hfile : FromFile answers size f) :
      Performed handle f (.read m buffer size count) ⟨r.code, r.bytesRead, some r.mem⟩
        (f.moveTo (f.pos + (delivered answers).length))
  | seek (offset whence : ℤ) (granted : Bool) :
      Performed handle f (.seek offset whence)
        ⟨(infraFileSeek handle f offset whence granted).2, none, none⟩
        (infraFileSeek handle f offset whence granted).1
  | size (count : Option ℕ) (granted : Bool × Bool × Bool) :
      Performed handle f (.size count)
        ⟨(infraFileSize handle f count granted).2.1,
          (infraFileSize handle f count granted).2.2, none⟩
        (infraFileSize handle f count granted).1

/-- A pointer is null, or the way of seeking is none of the three. -/
def Refused (handle : BitVec 64) : Request → Prop
  | .write _ buffer _ count => handle = 0 ∨ buffer = 0 ∨ count.isNone
  | .read _ buffer _ count => handle = 0 ∨ buffer = 0 ∨ count.isNone
  | .seek _ whence => handle = 0 ∨ osWhence whence = none
  | .size count => handle = 0 ∨ count.isNone

/-- One transfer, or a part of one when the call fails, and no more than a
position that is moved by the other calls. -/
inductive Served (f : File) : Request → Reply → File → Prop
  | write {m : Mem} {buffer size : ℕ} {count : Option ℕ} :
      Served f (.write m buffer size count) ⟨.ok, some size, none⟩ (f.put (loadBytes m buffer size))
  | writeBroken {m : Mem} {buffer size k : ℕ} {count : Option ℕ} (hk : k < size) :
      Served f (.write m buffer size count) ⟨.io, count, none⟩ (f.put (loadBytes m buffer k))
  | read {m m' : Mem} {buffer size : ℕ} {count : Option ℕ}
      (hframe : DiffersWithin m m' buffer (buffer + size))
      (hload : loadBytes m' buffer (f.within size) = loadBytes f.bytes f.pos (f.within size)) :
      Served f (.read m buffer size count) ⟨.ok, some (f.within size), some m'⟩
        (f.moveTo (f.pos + f.within size))
  | readBroken {m m' : Mem} {buffer size k : ℕ} {count : Option ℕ}
      (hframe : DiffersWithin m m' buffer (buffer + size)) (hk : k ≤ f.within size) :
      Served f (.read m buffer size count) ⟨.io, count, some m'⟩ (f.moveTo (f.pos + k))
  | seek {offset whence : ℤ} {w : Whence} {p : ℕ} (hw : osWhence whence = some w)
      (hp : f.seek offset w = some p) :
      Served f (.seek offset whence) ⟨.ok, none, none⟩ (f.moveTo p)
  | seekBroken {offset whence : ℤ} : Served f (.seek offset whence) ⟨.io, none, none⟩ f
  | size {count : Option ℕ} : Served f (.size count) ⟨.ok, some f.size, none⟩ f
  /-- The position is lost if the last of the three calls is the one that fails. -/
  | sizeBroken {p : ℕ} {count : Option ℕ} (hp : p = f.pos ∨ p = f.size) :
      Served f (.size count) ⟨.io, count, none⟩ (f.moveTo p)

/-- A call that is refused changes nothing, neither in the file nor for the
caller; every other call is served at once. -/
structure AtOnce (handle : BitVec 64) (f : File) (request : Request) (reply : Reply) (f' : File) :
    Prop where
  refused : Refused handle request → reply = request.unchanged .invalid ∧ f' = f
  served : ¬ Refused handle request → Served f request reply f'

/-- Calls from a file on, latest first, with their replies -/
inductive Run (step : File → Request → Reply → File → Prop) (f : File) :
    List (Request × Reply) → File → Prop
  | start : Run step f [] f
  | call {past : List (Request × Reply)} {f' f'' : File} {request : Request} {reply : Reply}
      (hpast : Run step f past f') (hcall : step f' request reply f'') :
      Run step f ((request, reply) :: past) f''

variable {handle : BitVec 64} {f f' f'' : File} {m m' : Mem} {buf buffer size total n lo hi : ℕ}
  {count : Option ℕ} {request : Request} {reply : Reply} {past : List (Request × Reply)}

/-! ### Writing -/

/-- However the buffer is taken, what has been received is written at once, and
a failure leaves something out. -/
theorem writeLoop_puts {answers : List (Answer ℕ)} {received : List UInt8} {out : Option ℕ}
    (hle : total ≤ size) (h : writeLoop m buf size answers total = some (received, out)) :
    afterWrites m buf answers total f = f.put received ∧
      (out = none → received.length < size - total) := by
  induction answers generalizing total received f with
  | nil =>
    unfold writeLoop at h
    split at h
    · cases h
    · cases h
      refine ⟨(put_nil f).symm, ?_⟩
      intro hnone
      cases hnone
  | cons answer rest ih =>
    unfold writeLoop at h
    by_cases hmore : total < size
    · rw [if_pos hmore] at h
      cases answer with
      | failed errno =>
        cases errno with
        | intr => exact ih hle h
        | other code =>
          obtain ⟨hrest, heq⟩ := isEmpty_of_some h
          cases heq
          rw [hrest]
          exact ⟨(put_nil f).symm, fun _ => by simpa using hmore⟩
      | done result =>
        dsimp only at h
        by_cases hpossible : Possible result (size - total)
        · rw [if_pos hpossible] at h
          obtain ⟨⟨later, out'⟩, hrest, heq⟩ := Option.map_eq_some_iff.mp h
          cases heq
          have hroom : result ≤ size - total := hpossible.1
          obtain ⟨hput, hshort⟩ := ih (f := f.put (loadBytes m (buf + total) result)) (by omega) hrest
          refine ⟨hput.trans (put_append f _ _).symm, fun hnone => ?_⟩
          have hlater : later.length < size - (total + result) := hshort hnone
          dsimp only
          rw [List.length_append, length_loadBytes]
          omega
        · rw [if_neg hpossible] at h
          cases h
    · rw [if_neg hmore] at h
      cases h

theorem atOnce_of_refused (hrefused : Refused handle request) :
    AtOnce handle f request (request.unchanged .invalid) f :=
  ⟨fun _ => ⟨rfl, rfl⟩, fun hserved => absurd hrefused hserved⟩

theorem atOnce_of_served (hserved : ¬ Refused handle request) (h : Served f request reply f') :
    AtOnce handle f request reply f' :=
  ⟨fun hrefused => absurd hrefused hserved, fun _ => h⟩

/-- Whoever gets another code than that of a refusal has been served. -/
theorem AtOnce.served_of_code (h : AtOnce handle f request reply f')
    (hcode : reply.code ≠ .invalid) : Served f request reply f' := by
  refine h.served fun hrefused => hcode ?_
  rw [(h.refused hrefused).1]
  cases request <;> rfl

theorem write_atOnce {answers : List (Answer ℕ)} {r : Written}
    (h : infraFileWrite handle m buffer size count answers = some r) :
    AtOnce handle f (.write m buffer size count) ⟨r.code, r.bytesWritten, none⟩
      (afterWrites m buffer answers 0 f) := by
  unfold infraFileWrite at h
  by_cases hnull : handle = 0 ∨ buffer = 0 ∨ count.isNone
  · rw [if_pos hnull] at h
    obtain ⟨rfl, rfl⟩ := isEmpty_of_some h
    exact atOnce_of_refused hnull
  · refine atOnce_of_served hnull ?_
    rw [if_neg hnull] at h
    cases hloop : writeLoop m buffer size answers 0 with
    | none =>
      rw [hloop] at h
      cases h
    | some result =>
      obtain ⟨received, out⟩ := result
      rw [hloop] at h
      obtain ⟨hput, hshort⟩ := writeLoop_puts (f := f) (Nat.zero_le size) hloop
      obtain ⟨_, k, hreceived, hall⟩ := writeLoop_spec (Nat.zero_le size) hloop
      rw [Nat.add_zero] at hreceived
      rw [hput, hreceived]
      cases out with
      | none =>
        cases h
        have hk := hshort rfl
        rw [hreceived, length_loadBytes, Nat.sub_zero] at hk
        exact .writeBroken hk
      | some n =>
        cases h
        obtain ⟨rfl, hend⟩ := hall n rfl
        rw [Nat.zero_add] at hend
        rw [hend]
        exact .write

/-! ### Reading -/

/-- The pieces delivered are together what the file has ahead. -/
theorem fromFile_delivered {answers : List (Answer (List UInt8))} (h : FromFile answers n f) :
    delivered answers = loadBytes f.bytes f.pos (delivered answers).length ∧
      (delivered answers).length ≤ f.within n ∧
      (.done [] ∈ answers → (delivered answers).length = f.within n) := by
  induction answers generalizing n f with
  | nil => exact ⟨rfl, Nat.zero_le _, fun hmem => nomatch hmem⟩
  | cons answer rest ih =>
    cases answer with
    | failed errno =>
      obtain ⟨hbytes, hlength, hend⟩ := ih h
      refine ⟨hbytes, hlength, fun hmem => hend ?_⟩
      exact (List.mem_cons.mp hmem).resolve_left fun heq => nomatch heq
    | done chunk =>
      obtain ⟨hchunk, hrest⟩ := h
      obtain ⟨hbytes, hlength, hend⟩ := ih hrest
      rw [within_moveTo hchunk.length] at hlength hend
      have hcons : delivered (.done chunk :: rest) = chunk ++ delivered rest := delivered_cons _ _
      have hroom := hchunk.length
      rw [hcons, List.length_append]
      refine ⟨?_, by omega, fun hmem => ?_⟩
      · rw [loadBytes_add, ← hchunk.bytes]
        exact congrArg (chunk ++ ·) hbytes
      · rcases List.mem_cons.mp hmem with heq | hmem
        · injection heq with heq
          have hnone := hchunk.some heq.symm
          omega
        · have hall := hend hmem
          omega

theorem read_atOnce {answers : List (Answer (List UInt8))} {r : Read}
    (h : infraFileRead handle m buffer size count answers = some r)
    (hfile : FromFile answers size f) :
    AtOnce handle f (.read m buffer size count) ⟨r.code, r.bytesRead, some r.mem⟩
      (f.moveTo (f.pos + (delivered answers).length)) := by
  have hright := infraFileRead_right h
  obtain ⟨hbytes, hlength, hend⟩ := fromFile_delivered hfile
  by_cases hnull : handle = 0 ∨ buffer = 0 ∨ count.isNone
  · unfold infraFileRead at h
    rw [if_pos hnull] at h
    obtain ⟨rfl, rfl⟩ := isEmpty_of_some h
    exact atOnce_of_refused hnull
  · refine atOnce_of_served hnull ?_
    push Not at hnull
    obtain ⟨hhandle, hbuffer, hcount⟩ := hnull
    rcases hright.answered hhandle hbuffer (Option.isSome_iff_ne_none.mpr (by simpa using hcount)) with
      hok | hio
    · obtain ⟨k, hcount, hk, hload, hfull⟩ := hright.ok hok
      have hlen : k = (delivered answers).length := by
        rw [← hload, length_loadBytes]
      -- short of the size it is the end of the file
      have hwithin : k = f.within size := by
        rcases Nat.lt_or_ge k size with hlt | hge
        · rw [hlen]
          exact hend (hfull hlt)
        · have hmin : f.within size ≤ size := Nat.min_le_left _ _
          omega
      rw [hok, hcount, ← hlen, hwithin]
      refine .read hright.frame ?_
      rw [← hwithin, hload, hlen]
      exact hbytes
    · rw [hio, hright.io_count hio]
      exact .readBroken hright.frame hlength

/-! ### Positions -/

theorem lseek_cases (f : File) (offset : ℤ) (whence : Whence) (granted : Bool) :
    (∃ p, f.seek offset whence = some p ∧ lseek f offset whence granted = (f.moveTo p, (p : ℤ))) ∨
      lseek f offset whence granted = (f, -1) := by
  unfold lseek
  split
  · exact Or.inl ⟨_, ‹_›, rfl⟩
  · exact Or.inr rfl

theorem natCast_ne_neg_one (p : ℕ) : (p : ℤ) ≠ -1 := by omega

theorem seek_atOnce (offset whence : ℤ) (granted : Bool) :
    AtOnce handle f (.seek offset whence)
      ⟨(infraFileSeek handle f offset whence granted).2, none, none⟩
      (infraFileSeek handle f offset whence granted).1 := by
  unfold infraFileSeek
  by_cases hnull : handle = 0
  · rw [if_pos hnull]
    exact atOnce_of_refused (Or.inl hnull)
  · rw [if_neg hnull]
    cases hw : osWhence whence with
    | none => exact atOnce_of_refused (Or.inr hw)
    | some w =>
      have hserved : ¬ Refused handle (.seek offset whence) := by
        rintro (hzero | hnone)
        · exact hnull hzero
        · rw [hw] at hnone
          cases hnone
      refine atOnce_of_served hserved ?_
      dsimp only
      rcases lseek_cases f offset w granted with ⟨p, hp, heq⟩ | heq
      · rw [heq, if_neg (natCast_ne_neg_one p)]
        exact .seek hw hp
      · rw [heq, if_pos rfl]
        exact .seekBroken

theorem seek_some {offset : ℤ} {w : Whence} {p : ℕ} (h : f.seek offset w = some p) :
    p = (f.base w + offset).toNat := by
  unfold File.seek at h
  split_ifs at h
  exact (Option.some.inj h).symm

theorem seek_zero {w : Whence} {p : ℕ} (h : f.seek 0 w = some p) : p = f.base w := by
  rw [seek_some h]
  exact Int.toNat_natCast _

theorem seek_set {p q : ℕ} (h : f.seek q .set = some p) : p = q := by
  rw [seek_some h]
  simp [File.base]

theorem size_atOnce (count : Option ℕ) (granted : Bool × Bool × Bool) :
    AtOnce handle f (.size count) ⟨(infraFileSize handle f count granted).2.1,
      (infraFileSize handle f count granted).2.2, none⟩
      (infraFileSize handle f count granted).1 := by
  unfold infraFileSize
  by_cases hnull : handle = 0 ∨ count.isNone
  · rw [if_pos hnull]
    exact atOnce_of_refused hnull
  · refine atOnce_of_served hnull ?_
    rw [if_neg hnull]
    rcases lseek_cases f 0 .cur granted.1 with ⟨p, hp, heq⟩ | heq
    · obtain rfl : p = f.pos := seek_zero hp
      simp only [heq, natCast_ne_neg_one, if_false, moveTo_self]
      rcases lseek_cases f 0 .fromEnd granted.2.1 with ⟨p, hp, heq⟩ | heq
      · obtain rfl : p = f.size := seek_zero hp
        simp only [heq, natCast_ne_neg_one, if_false]
        rcases lseek_cases (f.moveTo f.size) f.pos .set granted.2.2 with ⟨p, hp, heq⟩ | heq
        · obtain rfl : p = f.pos := seek_set hp
          simp only [heq, natCast_ne_neg_one, if_false, moveTo_moveTo, moveTo_self]
          exact .size
        · simp only [heq, if_true]
          exact .sizeBroken (Or.inr rfl)
      · simp only [heq, if_true]
        exact .sizeBroken (Or.inl rfl)
    · simp only [heq, if_true]
      exact .sizeBroken (Or.inl rfl)

theorem lseek_granted {offset : ℤ} {w : Whence} {p : ℕ} (h : f.seek offset w = some p) :
    lseek f offset w true = (f.moveTo p, (p : ℤ)) := by
  unfold lseek
  rw [h]

theorem seek_of_le {w : Whence} {p q : ℕ} (hp : f.base w + q = p) (hle : p ≤ positionMax) :
    f.seek q w = some p := by
  unfold File.seek
  rw [if_pos (by omega), ← hp]
  exact congrArg some (Int.toNat_natCast (f.base w + q))

/-- Where the system does its part the position is moved. -/
theorem seek_performed {whence : ℤ} {w : Whence} {p q : ℕ} (hhandle : handle ≠ 0)
    (hw : osWhence whence = some w) (hp : f.base w + q = p) (hle : p ≤ positionMax) :
    Performed handle f (.seek q whence) ⟨.ok, none, none⟩ (f.moveTo p) := by
  have hcall : infraFileSeek handle f q whence true = (f.moveTo p, .ok) := by
    unfold infraFileSeek
    rw [if_neg hhandle, hw]
    simp only [lseek_granted (seek_of_le hp hle), natCast_ne_neg_one, if_false]
  have hdone : Performed handle f (.seek q whence) _ _ := Performed.seek q whence true
  rwa [hcall] at hdone

/-- So is the size found, and the position kept. -/
theorem size_performed (hhandle : handle ≠ 0) (hpos : f.pos ≤ positionMax)
    (hsize : f.size ≤ positionMax) :
    Performed handle f (.size (some n)) ⟨.ok, some f.size, none⟩ f := by
  have hcur := lseek_granted (seek_of_le (f := f) (w := .cur) (Nat.add_zero f.pos) hpos)
  have hend := lseek_granted (seek_of_le (f := f) (w := .fromEnd) (Nat.add_zero f.size) hsize)
  have hback := lseek_granted
    (seek_of_le (f := f.moveTo f.size) (w := .set) (Nat.zero_add f.pos) hpos)
  rw [Nat.cast_zero] at hcur hend
  have hcall : infraFileSize handle f (some n) (true, true, true) = (f, .ok, some f.size) := by
    unfold infraFileSize
    rw [if_neg (by simpa using hhandle)]
    simp only [hcur, moveTo_self, hend, hback, moveTo_moveTo, natCast_ne_neg_one, if_false,
      Int.toNat_natCast]
  have hdone : Performed handle f (.size (some n)) _ _ := Performed.size (some n) (true, true, true)
  rwa [hcall] at hdone

/-! ### Runs of calls -/

theorem performed_atOnce (h : Performed handle f request reply f') :
    AtOnce handle f request reply f' := by
  cases h with
  | write h => exact write_atOnce h
  | read h hfile => exact read_atOnce h hfile
  | seek offset whence granted => exact seek_atOnce offset whence granted
  | size count granted => exact size_atOnce count granted

/-- Whatever the system makes of the transfers, a run of calls is one in which
each transfer is made at once, or a part of it where the call fails, and what is
refused has changed nothing. -/
theorem run_atOnce (h : Run (Performed handle) f past f') : Run (AtOnce handle) f past f' := by
  induction h with
  | start => exact .start
  | call _ hcall ih => exact .call ih (performed_atOnce hcall)

/-- A write that fails behind its first byte, and one whose count has no place. -/
theorem run_atOnce_broken : ∃ f f', Run (Performed 3) f
      [(.write (fun a => UInt8.ofNat a) 100 3 none, ⟨.invalid, none, none⟩),
        (.write (fun a => UInt8.ofNat a) 100 3 (some 7), ⟨.io, some 7, none⟩)] f' ∧
    Run (AtOnce 3) f
      [(.write (fun a => UInt8.ofNat a) 100 3 none, ⟨.invalid, none, none⟩),
        (.write (fun a => UInt8.ofNat a) 100 3 (some 7), ⟨.io, some 7, none⟩)] f' := by
  have hbroken : infraFileWrite 3 (fun a => UInt8.ofNat a) 100 3 (some 7)
      [.done 1, .failed (.other 28)] = some ⟨3, [100], .io, some 7⟩ := rfl
  have hnone : infraFileWrite 3 (fun a => UInt8.ofNat a) 100 3 none [] =
      some ⟨3, [], .invalid, none⟩ := rfl
  have hrun := Run.call (Run.call .start
    (Performed.write (f := ⟨fun _ => 0, 0, 0, false, fun _ _ => rfl⟩) hbroken))
    (Performed.write hnone)
  exact ⟨_, _, hrun, run_atOnce hrun⟩

def Spares (lo hi : ℕ) (f : File) : Request → Prop
  | .write _ _ size _ => f.place + size ≤ lo ∨ hi ≤ f.place
  | _ => True

theorem atOnce_spares (h : AtOnce handle f request reply f') (hspares : Spares lo hi f request) :
    AgreeOn f.bytes f'.bytes lo hi ∧ f.size ≤ f'.size := by
  have hput : ∀ {m buffer size count k}, Spares lo hi f (.write m buffer size count) → k ≤ size →
      AgreeOn f.bytes (f.put (loadBytes m buffer k)).bytes lo hi ∧
        f.size ≤ (f.put (loadBytes m buffer k)).size := by
    intro m buffer size count k hspares hk
    refine ⟨put_agreeOn ?_, size_le_put f _⟩
    unfold Spares at hspares
    rw [length_loadBytes]
    omega
  by_cases hrefused : Refused handle request
  · obtain rfl := (h.refused hrefused).2
    exact ⟨fun _ _ _ => rfl, Nat.le_refl _⟩
  · cases h.served hrefused with
    | write => exact hput hspares (Nat.le_refl _)
    | writeBroken hk => exact hput hspares (Nat.le_of_lt hk)
    | _ => exact ⟨fun _ _ _ => rfl, Nat.le_refl _⟩

theorem run_spares
    (h : Run (fun f request reply f' => Performed handle f request reply f' ∧ Spares lo hi f request)
      f past f') : AgreeOn f.bytes f'.bytes lo hi ∧ f.size ≤ f'.size := by
  induction h with
  | start => exact ⟨fun _ _ _ => rfl, Nat.le_refl _⟩
  | call _ hcall ih =>
    obtain ⟨hagree, hsize⟩ := atOnce_spares (performed_atOnce hcall.1) hcall.2
    exact ⟨fun i hlo hhi => (hagree i hlo hhi).trans (ih.1 i hlo hhi), ih.2.trans hsize⟩

/-- What a successful write has put into the file is what a successful read at
its place gives back, whole or any part of it, whatever calls come in between
that do not write there: others may write elsewhere, fail, or move the position. -/
theorem written_read_back {f₁ f₂ f₃ f₄ : File} {m₁ m₂ : Mem} {buffer₁ d k : ℕ}
    {out out' count' : Option ℕ}
    (hwrite : Performed handle f (.write m buffer size out) ⟨.ok, count, none⟩ f₁)
    (hrun : Run (fun f' request reply f'' => Performed handle f' request reply f'' ∧
      Spares f.place (f.place + size) f' request) f₁ past f₂)
    (hseek : Performed handle f₂ (.seek (f.place + d : ℕ) 0) ⟨.ok, none, none⟩ f₃)
    (hread : Performed handle f₃ (.read m₁ buffer₁ k out') ⟨.ok, count', some m₂⟩ f₄)
    (hinside : d + k ≤ size) :
    count = some size ∧ count' = some k ∧
      loadBytes m₂ buffer₁ k = loadBytes m (buffer + d) k := by
  obtain ⟨hagree, hsize⟩ := run_spares hrun
  have hcode : ErrorCode.ok ≠ .invalid := by decide
  cases (performed_atOnce hwrite).served_of_code hcode with
  | write =>
    have hwritten : loadBytes (f.put (loadBytes m buffer size)).bytes f.place size =
        loadBytes m buffer size := by
      have hput := loadBytes_put f (loadBytes m buffer size)
      rwa [length_loadBytes] at hput
    cases (performed_atOnce hseek).served_of_code hcode with
    | seek hw hp =>
      cases hw
      obtain rfl := seek_set hp
      cases (performed_atOnce hread).served_of_code hcode with
      | read _ hload =>
        have hwithin : (f₂.moveTo (f.place + d)).within k = k := by
          unfold File.within
          rw [moveTo_size, moveTo_pos]
          by_cases hnone : k = 0
          · omega
          · have hempty : loadBytes m buffer size ≠ [] := by
              intro heq
              have hlen := congrArg List.length heq
              rw [length_loadBytes, List.length_nil] at hlen
              omega
            rw [put_size hempty, length_loadBytes] at hsize
            omega
        rw [hwithin] at hload ⊢
        refine ⟨rfl, rfl, hload.trans ?_⟩
        have hpart : AgreeOn (f.put (loadBytes m buffer size)).bytes f₂.bytes (f.place + d)
            (f.place + d + k) := hagree.mono (Nat.le_add_right _ _) (by omega)
        rw [moveTo_bytes, moveTo_pos, loadBytes_congr hpart]
        exact loadBytes_part hwritten hinside

/-- Three bytes are written in two pieces, and two of them are read back in two
pieces, with an interruption and a call for the size in between. -/
theorem written_read_back_parts : ∃ f f₁ f₂ f₃ f₄ m₂,
    Performed 3 f (.write (fun a => UInt8.ofNat a) 100 3 (some 0)) ⟨.ok, some 3, none⟩ f₁ ∧
    Performed 3 f₁ (.size (some 0)) ⟨.ok, some 3, none⟩ f₂ ∧
    Performed 3 f₂ (.seek (f.place + 1 : ℕ) 0) ⟨.ok, none, none⟩ f₃ ∧
    Performed 3 f₃ (.read (fun _ => 0) 200 2 (some 0)) ⟨.ok, some 2, some m₂⟩ f₄ ∧
    loadBytes m₂ 200 2 = [101, 102] := by
  let f : File := ⟨fun _ => 0, 0, 0, false, fun _ _ => rfl⟩
  let f₁ : File := ⟨storeBytes (fun _ => 0) 0 [100, 101, 102], 3, 3, false,
    f.storeBytes_beyond [100, 101, 102]⟩
  have hloop : writeLoop (fun a => UInt8.ofNat a) 100 3 [.done 1, .failed .intr, .done 2] 0 =
      some ([100, 101, 102], some 3) := rfl
  have hcall : infraFileWrite 3 (fun a => UInt8.ofNat a) 100 3 (some 0)
      [.done 1, .failed .intr, .done 2] = some ⟨3, [100, 101, 102], .ok, some 3⟩ := rfl
  have hwrite := Performed.write (f := f) hcall
  have hput : f.put [100, 101, 102] = f₁ := rfl
  rw [(writeLoop_puts (Nat.zero_le 3) hloop).1, hput] at hwrite
  have hsize : Performed 3 f₁ (.size (some 0)) ⟨.ok, some 3, none⟩ f₁ :=
    size_performed (by decide) (by decide : (3 : ℕ) ≤ positionMax) (by decide : (3 : ℕ) ≤ positionMax)
  have hseek : Performed 3 f₁ (.seek (f.place + 1 : ℕ) 0) ⟨.ok, none, none⟩ (f₁.moveTo 1) :=
    seek_performed (by decide) rfl rfl (by decide)
  have hcall' : infraFileRead 3 (fun _ => 0) 200 2 (some 0) [.done [101], .failed .intr, .done [102]] =
      some ⟨3, storeBytes (storeBytes (fun _ => 0) 200 [101]) 201 [102], .ok, some 2⟩ := rfl
  have hfile : FromFile [.done [101], .failed .intr, .done [102]] 2 (f₁.moveTo 1) :=
    ⟨⟨rfl, by decide, by simp⟩, ⟨rfl, by decide, by simp⟩, trivial⟩
  have hread := Performed.read hcall' hfile
  have hrun : Run (fun f' request reply f'' => Performed 3 f' request reply f'' ∧
      Spares f.place (f.place + 3) f' request) f₁ [(.size (some 0), ⟨.ok, some 3, none⟩)] f₁ :=
    .call .start ⟨hsize, trivial⟩
  have hback := written_read_back hwrite hrun hseek hread (by decide)
  exact ⟨f, f₁, f₁, _, _, _, hwrite, hsize, hseek, hread, hback.2.2⟩

end Ppdb.FileCalls
