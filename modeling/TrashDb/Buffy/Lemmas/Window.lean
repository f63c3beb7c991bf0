import TrashDb.Lib.Lts
import TrashDb.Buffy.Lemmas.Framing

/-!
This module contains the receive buffer of `buffy.c` as a window on the stream of the connection. The
helper that receives stores at the beginning of the buffer, and the one that moves the unread bytes
there takes their number off the end, so the window is only kept if all bytes have been read before
the next ones arrive.
-/

open Word

namespace Buffy

theorem length_load (buff : Nat → UInt8) (offset len : Nat) : (load buff offset len).length = len := by
  simp [load]

theorem load_zero (buff : Nat → UInt8) (offset : Nat) : load buff offset 0 = [] := rfl

theorem load_add (buff : Nat → UInt8) (offset m n : Nat)
    : load buff offset (m + n) = load buff offset m ++ load buff (offset + m) n := by
  rw [load, load, load, ← List.map_append, List.range'_append_1]

theorem store_nil (buff : Nat → UInt8) (offset : Nat) : store buff offset [] = buff := by
  funext i
  rw [store, if_neg]
  simp

theorem load_store_all (buff : Nat → UInt8) (bytes : List UInt8)
    : load (store buff 0 bytes) 0 bytes.length = bytes := by
  rw [load_store (by omega), List.drop_zero, List.take_length]

def received (kernel : List Event) : List UInt8 := kernel.flatMap Event.received

def recvFails : List Event → Bool
  | .eintr :: kernel => recvFails kernel
  | .bytes _ :: _ => false
  | [] | .wouldBlock :: _ | .hangup :: _ => true

namespace TrashData

def window (td : TrashData) : List UInt8 := load td.recvBuff td.recvBuffPtr (td.recvBuffLen - td.recvBuffPtr)

/--
The bytes `bs` have arrived, and `kernel` is what is going to happen from then on.
-/
def recv (td : TrashData) (bs : List UInt8) (kernel : List Event) : TrashData :=
  {
    td with
    kernel := kernel
    recvBuff := store td.recvBuff 0 bs
    recvBuffLen := td.recvBuffLen + bs.length
  }

theorem recv_nil (td : TrashData) (kernel : List Event) : td.recv [] kernel = { td with kernel := kernel } := by
  rw [recv, store_nil]
  rfl

structure Receives (td : TrashData) (kernel : List Event) (bs : List UInt8) (kernel' : List Event) : Prop where
  room : td.recvBuffLen + bs.length ≤ recvBuffySize
  rest : bs ++ received kernel' = received kernel
  fails : recvFails kernel = true ∨ td.recvBuffLen = recvBuffySize → bs = []

theorem recvLoop_eq (td : TrashData) (kernel : List Event) (h : td.recvBuffLen ≤ recvBuffySize)
    : ∃ rc bs kernel', td.recvLoop kernel = .ok (rc, td.recv bs kernel') ∧
        td.Receives kernel bs kernel' := by
  have hnone : ∀ {kernel kernel'}, received kernel' = received kernel → td.Receives kernel [] kernel' :=
    fun hsame => ⟨h, hsame, fun _ => rfl⟩
  induction kernel with
  | nil => exact ⟨trashError, [], [], by rw [recv_nil]; rfl, hnone rfl⟩
  | cons e kernel ih =>
    cases e with
    | eintr =>
      obtain ⟨rc, bs, kernel', hrecv, hroom, hrest, hfails⟩ := ih
      exact ⟨rc, bs, kernel', hrecv, hroom, hrest, hfails⟩
    | wouldBlock => exact ⟨trashError, [], kernel, by rw [recv_nil]; rfl, hnone rfl⟩
    | hangup => exact ⟨trashEof, [], .hangup :: kernel, by rw [recv_nil]; rfl, hnone rfl⟩
    | bytes bs =>
      have hspace : td.recvSpace = recvBuffySize - td.recvBuffLen := sub32_of_le h
      have hrest : bs.take (min bs.length td.recvSpace) ++
          received (if min bs.length td.recvSpace < bs.length
            then .bytes (bs.drop (min bs.length td.recvSpace)) :: kernel else kernel) =
          received (.bytes bs :: kernel) := by
        split
        . simp only [received, List.flatMap_cons, Event.received, ← List.append_assoc, List.take_append_drop]
        . next hall =>
          simp only [received, List.flatMap_cons, Event.received, List.take_of_length_le (Nat.not_lt.mp hall)]
      by_cases hzero : min bs.length td.recvSpace = 0
      . rw [hzero, List.take_zero, List.nil_append] at hrest
        refine ⟨trashEof, [], _, ?_, hnone hrest⟩
        simp only [recvLoop, hzero, if_true, recv_nil]
      . have hle : min bs.length td.recvSpace ≤ recvBuffySize := by omega
        have hadd : add32 td.recvBuffLen (min bs.length td.recvSpace) =
            td.recvBuffLen + min bs.length td.recvSpace := by
          apply add32_of_lt
          unfold recvBuffySize at *
          omega
        have hlen : (bs.take (min bs.length td.recvSpace)).length = min bs.length td.recvSpace := by
          rw [List.length_take]
          omega
        refine ⟨trashSuccess, bs.take (min bs.length td.recvSpace), _, ?_, by omega, hrest, ?_⟩
        . simp only [recvLoop, if_neg hzero, if_pos hle, recv, hadd, hlen]
        . rintro (hfails | hfull)
          . cases hfails
          . omega

end TrashData

inductive Read where
  | kernel
  | buff (strgLen : Nat)

/--
`out` is what the reads have copied out of the buffer, one after the other.
-/
structure Reader where
  td : TrashData
  out : List UInt8

namespace Reader

def step (r : Reader) : Read → Option Reader
  | .kernel => r.td.getBytesFromKernel.toOption.map fun (_, td) => { r with td := td }
  | .buff strgLen => (r.td.getBytesFromBuff strgLen).toOption.map fun (strg, td) => ⟨td, r.out ++ strg⟩

structure InOrder (stream : List UInt8) (r : Reader) : Prop where
  start_le : r.td.recvBuffPtr ≤ r.td.recvBuffLen
  end_le : r.td.recvBuffLen ≤ recvBuffySize
  stream : r.out ++ r.td.window ++ received r.td.kernel = stream

/--
A call that receives finds all bytes read, or it receives none and those that it moves are as many as
those before them.
-/
def Drained (r : Reader) : Read → Prop
  | .buff _ => True
  | .kernel =>
    r.td.recvBuffLen ≤ r.td.recvBuffPtr ∨
      recvFails r.td.kernel = true ∧ (r.td.recvBuffPtr = 0 ∨ r.td.recvBuffLen = 2 * r.td.recvBuffPtr) ∨
      r.td.recvBuffPtr = 0 ∧ r.td.recvBuffLen = recvBuffySize

variable {stream : List UInt8} {r : Reader}

theorem InOrder.getBytesFromBuff (h : r.InOrder stream) (strgLen : Nat)
    : ∃ r', r.step (.buff strgLen) = some r' ∧ r'.InOrder stream := by
  obtain ⟨hstart, hend, hstream⟩ := h
  have hword : r.td.recvBuffLen < 2 ^ 16 := by
    unfold recvBuffySize at hend
    omega
  have hamnt : (if strgLen < sub32 r.td.recvBuffLen r.td.recvBuffPtr % 2 ^ 16 then strgLen
      else sub32 r.td.recvBuffLen r.td.recvBuffPtr % 2 ^ 16) =
      min strgLen (r.td.recvBuffLen - r.td.recvBuffPtr) := by
    rw [sub32_of_le hstart, Nat.mod_eq_of_lt (by omega)]
    split <;> omega
  generalize hm : min strgLen (r.td.recvBuffLen - r.td.recvBuffPtr) = m at hamnt
  have hadd : add32 r.td.recvBuffPtr m = r.td.recvBuffPtr + m := add32_of_lt (by omega)
  refine ⟨⟨{ r.td with recvBuffPtr := r.td.recvBuffPtr + m }, r.out ++ load r.td.recvBuff r.td.recvBuffPtr m⟩,
    ?_, ?_, hend, ?_⟩
  . simp only [step, TrashData.getBytesFromBuff, hamnt, hadd]
    rw [if_pos (by omega)]
    rfl
  . dsimp only
    omega
  . have hsplit := load_add r.td.recvBuff r.td.recvBuffPtr m (r.td.recvBuffLen - (r.td.recvBuffPtr + m))
    rw [show m + (r.td.recvBuffLen - (r.td.recvBuffPtr + m)) = r.td.recvBuffLen - r.td.recvBuffPtr by omega]
      at hsplit
    rw [← hstream]
    simp only [TrashData.window, hsplit, List.append_assoc]

theorem InOrder.recv_empty (h : r.InOrder stream) (hread : r.td.recvBuffLen ≤ r.td.recvBuffPtr)
    : ∃ r', r.step .kernel = some r' ∧ r'.InOrder stream := by
  let empty : TrashData := { r.td with recvBuffPtr := 0, recvBuffLen := 0 }
  obtain ⟨rc, bs, kernel', hrecv, hroom, hrest, -⟩ := empty.recvLoop_eq r.td.kernel (Nat.zero_le _)
  have hcall : r.td.getBytesFromKernel = .ok (rc, empty.recv bs kernel') := by
    simp only [TrashData.getBytesFromKernel, ge_iff_le, hread, if_true, Nat.lt_irrefl, gt_iff_lt, if_false]
    exact hrecv
  have hwindow : r.td.window = [] := by
    rw [TrashData.window, Nat.sub_eq_zero_of_le hread, load_zero]
  have harrived : (empty.recv bs kernel').window = bs := by
    simp only [TrashData.window, TrashData.recv, empty, Nat.zero_add, Nat.sub_zero, load_store_all]
  refine ⟨⟨empty.recv bs kernel', r.out⟩, by rw [step, hcall]; rfl, Nat.zero_le _, ?_, ?_⟩
  . simpa [TrashData.recv, empty] using hroom
  . rw [harrived, ← h.stream, hwindow, ← hrest, List.append_nil, List.append_assoc]
    rfl

theorem InOrder.recv_nothing (h : r.InOrder stream) (hread : ¬ r.td.recvBuffLen ≤ r.td.recvBuffPtr)
    (hzero : r.td.recvBuffPtr = 0)
    (hnothing : recvFails r.td.kernel = true ∨ r.td.recvBuffLen = recvBuffySize)
    : ∃ r', r.step .kernel = some r' ∧ r'.InOrder stream := by
  obtain ⟨rc, bs, kernel', hrecv, -, hrest, hfails⟩ := r.td.recvLoop_eq r.td.kernel h.end_le
  obtain rfl : bs = [] := hfails hnothing
  have hcall : r.td.getBytesFromKernel = .ok (rc, { r.td with kernel := kernel' }) := by
    simp only [TrashData.getBytesFromKernel, ge_iff_le, hread, if_false]
    rw [if_neg (by omega), hrecv, TrashData.recv_nil]
  refine ⟨⟨{ r.td with kernel := kernel' }, r.out⟩, by rw [step, hcall]; rfl, h.start_le, h.end_le, ?_⟩
  rw [← h.stream, ← hrest]
  rfl

/--
As many bytes are taken off the end as are in front of the unread ones, which is right by chance.
-/
theorem InOrder.recv_half (h : r.InOrder stream) (hread : ¬ r.td.recvBuffLen ≤ r.td.recvBuffPtr)
    (hfailed : recvFails r.td.kernel = true) (hhalf : r.td.recvBuffLen = 2 * r.td.recvBuffPtr)
    : ∃ r', r.step .kernel = some r' ∧ r'.InOrder stream := by
  have hend := h.end_le
  have hleft : r.td.recvBuffLen - r.td.recvBuffPtr = r.td.recvBuffPtr := by omega
  let moved : TrashData :=
    {
      r.td with
      recvBuff := store r.td.recvBuff 0 (load r.td.recvBuff r.td.recvBuffPtr r.td.recvBuffPtr)
      recvBuffPtr := 0
      recvBuffLen := r.td.recvBuffPtr
    }
  have hmoved : moved.recvBuffLen ≤ recvBuffySize := Nat.le_trans h.start_le hend
  obtain ⟨rc, bs, kernel', hrecv, -, hrest, hfails⟩ := moved.recvLoop_eq r.td.kernel hmoved
  obtain rfl : bs = [] := hfails (.inl hfailed)
  have hcall : r.td.getBytesFromKernel = .ok (rc, { moved with kernel := kernel' }) := by
    have hpos : 0 < r.td.recvBuffPtr := by omega
    simp only [TrashData.getBytesFromKernel, ge_iff_le, hread, if_false, gt_iff_lt, hpos, if_true,
      sub32_of_le h.start_le, hleft]
    rw [if_pos (by omega)]
    rw [TrashData.recv_nil] at hrecv
    exact hrecv
  have hwindow : moved.window = r.td.window := by
    have := load_store_all r.td.recvBuff (load r.td.recvBuff r.td.recvBuffPtr r.td.recvBuffPtr)
    rw [length_load] at this
    rw [TrashData.window, TrashData.window, hleft]
    exact this
  refine ⟨⟨{ moved with kernel := kernel' }, r.out⟩, by rw [step, hcall]; rfl, Nat.zero_le _, hmoved, ?_⟩
  rw [← h.stream, ← hrest, ← hwindow]
  rfl

theorem InOrder.getBytesFromKernel (h : r.InOrder stream) (hdrained : r.Drained .kernel)
    : ∃ r', r.step .kernel = some r' ∧ r'.InOrder stream := by
  by_cases hread : r.td.recvBuffLen ≤ r.td.recvBuffPtr
  . exact h.recv_empty hread
  . obtain ⟨hfailed, hzero | hhalf⟩ | ⟨hzero, hfull⟩ := hdrained.resolve_left hread
    . exact h.recv_nothing hread hzero (.inl hfailed)
    . exact h.recv_half hread hfailed hhalf
    . exact h.recv_nothing hread hzero (.inr hfull)

theorem InOrder.step {op : Read} (h : r.InOrder stream) (hdrained : r.Drained op)
    : ∃ r', r.step op = some r' ∧ r'.InOrder stream := by
  cases op with
  | kernel => exact h.getBytesFromKernel hdrained
  | buff strgLen => exact h.getBytesFromBuff strgLen

end Reader

theorem readsInOrder_of_run {kernel : List Event} {recvBuff : Nat → UInt8} {ops : List Read}
    (h : Lts.Along Reader.step Reader.Drained ⟨constructClient kernel recvBuff, []⟩ ops) (k : Nat)
    : ∃ r, Lts.run Reader.step ⟨constructClient kernel recvBuff, []⟩ (ops.take k) = some r ∧
        r.InOrder (received kernel) := by
  apply Lts.progress_along (fun r op => Reader.InOrder.step) _ h
  exact ⟨Nat.le_refl 0, Nat.zero_le _, rfl⟩

def pieces : List Event := [.bytes [1, 2], .eintr, .bytes [3]]

def wholeReads : List Read := [.kernel, .buff 2, .kernel]

theorem inOrder_wholeReads
    : ∃ r, Lts.run Reader.step ⟨constructClient pieces (fun _ => 0), []⟩ (wholeReads.take 3) = some r ∧
        r.InOrder (received pieces) := by
  apply readsInOrder_of_run
  refine ⟨.inl (Nat.le_refl 0), fun r₁ h₁ => ⟨trivial, fun r₂ h₂ => ⟨?_, fun _ _ => trivial⟩⟩⟩
  cases h₁
  cases h₂
  exact .inl (by decide)

/--
One of two bytes is read before the third one arrives, which is then stored over the second one.
-/
theorem not_inOrder_remainder
    : ∃ r, Lts.run Reader.step ⟨constructClient pieces (fun _ => 0), []⟩ [.kernel, .buff 1, .kernel] = some r ∧
        ¬ r.InOrder (received pieces) := by
  refine ⟨_, rfl, ?_⟩
  intro h
  have := h.stream
  revert this
  decide

end Buffy
