import TrashDb.Buffy.Lemmas.Window
import TrashDb.Buffy.Send

/-!
This module contains what is sent of the bytes that are put into the send buffer of `buffy.c`. A
`flush_data` sends the right bytes up to the first `send` that is accepted in a call, provided that
the buffer has not been sent from before. A `put_bytes_on_buff` is right if the bytes fit, it never
makes enough room for bytes that do not fit except in a buffer of no length.
-/

namespace Buffy

theorem load_succ (buff : Nat → UInt8) (offset len : Nat)
    : load buff offset (len + 1) = buff offset :: load buff (offset + 1) len := by
  rw [load, List.range'_succ, List.map_cons]
  rfl

def SendBuff.window (sendBuff : Nat → UInt8) (sb : SendBuff) : List UInt8 :=
  load sendBuff sb.startPtr (sb.endPtr - sb.startPtr)

structure SentOnce (sendBuff : Nat → UInt8) (sb : SendBuff) (flushed : Flushed) : Prop where
  accepted : flushed.accepted <+: sb.window sendBuff
  whole : flushed.rc = trashSuccess → flushed.accepted = sb.window sendBuff
  rest : flushed.rc ≠ trashSuccess →
    flushed.accepted ++ flushed.sb.window sendBuff = sb.window sendBuff

/--
The first `send` that accepts something, after any interruptions, and what is answered after it.
-/
def firstSent : List SendAnswer → Option (Nat × List SendAnswer)
  | .eintr :: answers => firstSent answers
  | .sent (n + 1) :: answers => some (n + 1, answers)
  | [] | .fails :: _ | .sent 0 :: _ => none

def SendsOnce (sb : SendBuff) (answers : List SendAnswer) : Prop :=
  match firstSent answers with
  | none => True
  | some (n, answers) => sb.startPtr = 0 ∧ (sb.endPtr ≤ n ∨ firstSent answers = none)

section Flush

variable {sb : SendBuff} {answers : List SendAnswer}

theorem flushLoop_done (sendBuff : Nat → UInt8) (len : Nat) (h : sb.endPtr ≤ sb.startPtr)
    : flushLoop sendBuff sb len answers = ⟨trashSuccess, ⟨0, 0⟩, []⟩ := by
  cases answers <;> simp [flushLoop, Nat.not_lt.mpr h]

theorem flushLoop_none (sendBuff : Nat → UInt8) (len : Nat)
    (h : sb.startPtr < sb.endPtr) (hsent : firstSent answers = none)
    : ∃ rc, flushLoop sendBuff sb len answers = ⟨rc, sb, []⟩ ∧ rc ≠ trashSuccess := by
  induction answers with
  | nil => exact ⟨trashError, by simp [flushLoop, h], by decide⟩
  | cons answer answers ih =>
    simp only [flushLoop, if_pos h]
    cases answer with
    | eintr => exact ih hsent
    | fails => exact ⟨trashError, rfl, by decide⟩
    | sent n =>
      cases n with
      | zero => exact ⟨trashEof, by simp, by decide⟩
      | succ n => cases hsent

theorem firstSent_pos {n : Nat} {answers' : List SendAnswer} (h : firstSent answers = some (n, answers'))
    : 0 < n := by
  induction answers with
  | nil => cases h
  | cons answer answers ih =>
    cases answer with
    | eintr => exact ih h
    | fails => cases h
    | sent m =>
      cases m with
      | zero => cases h
      | succ m =>
        cases h
        exact Nat.succ_pos m

theorem flushLoop_some {n k : Nat} {answers' : List SendAnswer} (sendBuff : Nat → UInt8) (len : Nat)
    (h : sb.startPtr < sb.endPtr) (hsent : firstSent answers = some (n, answers'))
    (hk : min n (sb.endPtr - sb.startPtr) = k)
    : flushLoop sendBuff sb len answers =
        (flushLoop sendBuff { sb with startPtr := sb.startPtr + (len + k) } (len + k) answers').after
          (load sendBuff 0 k) := by
  induction answers with
  | nil => cases hsent
  | cons answer answers ih =>
    cases answer with
    | eintr =>
      simp only [flushLoop, if_pos h]
      exact ih hsent
    | fails => cases hsent
    | sent m =>
      cases m with
      | zero => cases hsent
      | succ m =>
        cases hsent
        simp only [flushLoop, if_pos h, hk]
        rw [if_neg (by omega)]

theorem window_eq (sendBuff : Nat → UInt8) (h : sb.startPtr < sb.endPtr)
    : sb.window sendBuff =
        sendBuff sb.startPtr :: load sendBuff (sb.startPtr + 1) (sb.endPtr - sb.startPtr - 1) := by
  rw [SendBuff.window, show sb.endPtr - sb.startPtr = sb.endPtr - sb.startPtr - 1 + 1 by omega, load_succ,
    Nat.add_sub_cancel]

theorem sentOnce_of_sendsOnce (sendBuff : Nat → UInt8) (h : sb.startPtr < sb.endPtr)
    (honce : SendsOnce sb answers)
    : SentOnce sendBuff sb (flushData sendBuff sb answers) := by
  unfold SendsOnce at honce
  unfold flushData
  split at honce
  . next hsent =>
    obtain ⟨rc, hflush, hrc⟩ := flushLoop_none sendBuff 0 h hsent
    rw [hflush]
    exact ⟨List.nil_prefix, fun h => absurd h hrc, fun _ => rfl⟩
  . next n answers' hsent =>
    obtain ⟨hstart, hlast⟩ := honce
    by_cases hwhole : sb.endPtr ≤ n
    . have hflush := flushLoop_some (k := sb.endPtr) sendBuff 0 h hsent (by omega)
      have hwindow : load sendBuff 0 sb.endPtr = sb.window sendBuff := by
        rw [SendBuff.window, hstart, Nat.sub_zero]
      rw [hstart, Nat.zero_add, Nat.zero_add] at hflush
      have hdone := @flushLoop_done ⟨sb.endPtr, sb.endPtr⟩ answers' sendBuff sb.endPtr (Nat.le_refl _)
      rw [hdone, Flushed.after, List.append_nil, hwindow] at hflush
      rw [hflush]
      exact ⟨List.prefix_rfl, fun _ => rfl, fun h => absurd rfl h⟩
    . have hflush := flushLoop_some (k := n) sendBuff 0 h hsent (by omega)
      have hwindow : load sendBuff 0 n ++ load sendBuff n (sb.endPtr - n) = sb.window sendBuff := by
        have hadd := load_add sendBuff 0 n (sb.endPtr - n)
        rw [Nat.zero_add, show n + (sb.endPtr - n) = sb.endPtr by omega] at hadd
        rw [SendBuff.window, hstart, Nat.sub_zero, hadd]
      rw [hstart, Nat.zero_add, Nat.zero_add] at hflush
      have hlt : n < sb.endPtr := by omega
      have hnone := hlast.resolve_left hwhole
      obtain ⟨rc, hlast, hrc⟩ := @flushLoop_none ⟨n, sb.endPtr⟩ _ sendBuff n hlt hnone
      rw [hlast, Flushed.after, List.append_nil] at hflush
      rw [hflush]
      exact ⟨⟨_, hwindow⟩, fun h => absurd h hrc, fun _ => hwindow⟩

/--
Two bytes of a buffer are only the same in all buffers if they are one byte.
-/
theorem eq_zero_of_bytes {m : Nat} (h : ∀ sendBuff : Nat → UInt8, sendBuff 0 = sendBuff m) : m = 0 := by
  have := h fun i => if i = 0 then 1 else 0
  by_contra hne
  simp [hne] at this

theorem sendsOnce_of_sentOnce (h : sb.startPtr < sb.endPtr)
    (honce : ∀ sendBuff, SentOnce sendBuff sb (flushData sendBuff sb answers))
    : SendsOnce sb answers := by
  unfold SendsOnce
  split
  . trivial
  . next n answers' hsent =>
    have hn := firstSent_pos hsent
    obtain ⟨k, hk⟩ : ∃ k, min n (sb.endPtr - sb.startPtr) = k + 1 :=
      ⟨min n (sb.endPtr - sb.startPtr) - 1, by omega⟩
    have hstart : sb.startPtr = 0 := by
      apply eq_zero_of_bytes
      intro sendBuff
      have := (honce sendBuff).accepted
      rw [flushData, flushLoop_some sendBuff 0 h hsent hk, window_eq sendBuff h, Flushed.after, load_succ,
        List.cons_append, List.cons_prefix_cons] at this
      exact this.1
    refine ⟨hstart, ?_⟩
    by_contra hmore
    obtain ⟨hlt, hmore⟩ := not_or.mp hmore
    obtain ⟨⟨n', answers''⟩, hsent'⟩ := Option.ne_none_iff_exists'.mp hmore
    have hn' := firstSent_pos hsent'
    have hzero : n = 0 := by
      apply eq_zero_of_bytes
      intro sendBuff
      have := (honce sendBuff).accepted
      have hmin : min n (sb.endPtr - sb.startPtr) = n := by omega
      obtain ⟨k', hk'⟩ : ∃ k', min n' (sb.endPtr - n) = k' + 1 := ⟨min n' (sb.endPtr - n) - 1, by omega⟩
      have hlt' : n < sb.endPtr := by omega
      have hnext := @flushLoop_some ⟨n, sb.endPtr⟩ _ _ _ _ sendBuff n hlt' hsent' hk'
      have hadd := load_add sendBuff 0 n (sb.endPtr - n - 1 + 1)
      rw [Nat.zero_add, load_succ] at hadd
      rw [flushData, flushLoop_some sendBuff 0 h hsent hmin, hstart, Nat.zero_add, Nat.zero_add, hnext, SendBuff.window,
        hstart, Nat.sub_zero, show sb.endPtr = n + (sb.endPtr - n - 1 + 1) by omega, hadd, Flushed.after,
        List.prefix_append_right_inj, Flushed.after, load_succ, List.cons_append, List.cons_prefix_cons] at this
      exact this.1
    omega

theorem sentOnce_iff (sb : SendBuff) (answers : List SendAnswer)
    : (∀ sendBuff, SentOnce sendBuff sb (flushData sendBuff sb answers))
        ↔
      sb.endPtr ≤ sb.startPtr ∨ SendsOnce sb answers := by
  by_cases hempty : sb.endPtr ≤ sb.startPtr
  . simp only [hempty, true_or, iff_true]
    intro sendBuff
    rw [flushData, flushLoop_done sendBuff 0 hempty]
    have hwindow : sb.window sendBuff = [] := by
      rw [SendBuff.window, Nat.sub_eq_zero_of_le hempty, load_zero]
    exact ⟨List.nil_prefix, fun _ => hwindow.symm, fun h => absurd rfl h⟩
  . simp only [hempty, false_or]
    have hlt := Nat.lt_of_not_le hempty
    exact ⟨sendsOnce_of_sentOnce hlt, fun honce sendBuff => sentOnce_of_sendsOnce sendBuff hlt honce⟩

/--
The kernel takes two bytes and then the third one, which is the first one again.
-/
theorem not_sentOnce_partial
    : ¬ SentOnce (fun i => UInt8.ofNat i) ⟨0, 3⟩
        (flushData (fun i => UInt8.ofNat i) ⟨0, 3⟩ [.sent 2, .sent 1]) := by
  intro h
  have := h.accepted
  revert this
  decide

end Flush

namespace PutArgs

structure Sound (args : PutArgs) : Prop where
  start_le : args.startPtr ≤ args.endPtr
  end_le : args.endPtr ≤ args.sendBuffLen
  block : ∃ bytes, args.heap args.sendBuff = some ⟨args.sendBuffLen, bytes⟩

def pending (args : PutArgs) : List UInt8 :=
  match args.heap args.sendBuff with
  | none => []
  | some block => load block.bytes args.startPtr (args.endPtr - args.startPtr)

structure Queued (args : PutArgs) (fromBuff : List UInt8) (args' : PutArgs) : Prop where
  sound : args'.Sound
  sendBuff : args'.sendBuff = args.sendBuff
  pending : args'.pending = args.pending ++ fromBuff

def Fits (args : PutArgs) (fromBuff : List UInt8) (newPtr : Nat) : Prop :=
  fromBuff.length ≤ args.sendBuffLen - args.endPtr ∨ args.sendBuffLen = 0 ∧ newPtr = args.sendBuff

variable {args args' : PutArgs} {fromBuff : List UInt8} {newPtr : Nat}

theorem load_store_append (buff : Nat → UInt8) {startPtr endPtr : Nat} (h : startPtr ≤ endPtr) (bytes : List UInt8)
    : load (store buff endPtr bytes) startPtr (endPtr + bytes.length - startPtr) =
        load buff startPtr (endPtr - startPtr) ++ bytes := by
  rw [show endPtr + bytes.length - startPtr = (endPtr - startPtr) + bytes.length by omega, load_add,
    show startPtr + (endPtr - startPtr) = endPtr by omega]
  congr 1
  . apply List.map_congr_left
    intro i hi
    rw [List.mem_range'_1] at hi
    rw [store, if_neg (by omega)]
  . apply List.ext_getElem
    . exact length_load _ _ _
    . intro i _ hi
      simp only [load, List.getElem_map, List.getElem_range', Nat.one_mul, store]
      rw [if_pos (by omega), Nat.add_sub_cancel_left]
      simp [hi]

theorem putBytesOnBuff_of_room (hroom : fromBuff.length ≤ args.sendBuffLen - args.endPtr)
    : putBytesOnBuff args fromBuff newPtr =
        (args.heap.memmove args.sendBuff args.endPtr fromBuff).map fun heap =>
          { args with heap := heap, endPtr := args.endPtr + fromBuff.length } := by
  rw [putBytesOnBuff]
  simp only [gt_iff_lt, Nat.not_lt.mpr hroom, if_false]
  cases args.heap.memmove args.sendBuff args.endPtr fromBuff <;> rfl

theorem putBytesOnBuff_of_small (hroom : ¬ fromBuff.length ≤ args.sendBuffLen - args.endPtr)
    (hneeded : fromBuff.length - (args.sendBuffLen - args.endPtr) ≤ args.sendBuffLen)
    : putBytesOnBuff args fromBuff newPtr =
        (args.heap.memmove args.sendBuff args.endPtr fromBuff).map fun heap =>
          { args with heap := heap, endPtr := args.endPtr + fromBuff.length } := by
  rw [putBytesOnBuff]
  simp only [gt_iff_lt, Nat.lt_of_not_le hroom, if_true, resizeSendBuff, Nat.not_lt.mpr hneeded, if_false]
  cases args.heap.memmove args.sendBuff args.endPtr fromBuff <;> rfl

theorem putBytesOnBuff_of_large (hroom : ¬ fromBuff.length ≤ args.sendBuffLen - args.endPtr)
    (hneeded : ¬ fromBuff.length - (args.sendBuffLen - args.endPtr) ≤ args.sendBuffLen)
    : putBytesOnBuff args fromBuff newPtr =
        ((args.heap.trashRealloc args.sendBuff newPtr
            (fromBuff.length - (args.sendBuffLen - args.endPtr))).memmove newPtr args.endPtr fromBuff).map
          fun heap =>
            { args with
              heap := heap
              sendBuffLen := fromBuff.length - (args.sendBuffLen - args.endPtr)
              endPtr := args.endPtr + fromBuff.length } := by
  rw [putBytesOnBuff]
  simp only [gt_iff_lt, Nat.lt_of_not_le hroom, if_true, resizeSendBuff, Nat.lt_of_not_le hneeded]
  cases (args.heap.trashRealloc args.sendBuff newPtr
    (fromBuff.length - (args.sendBuffLen - args.endPtr))).memmove newPtr args.endPtr fromBuff <;> rfl

theorem memmove_of_block {heap : Heap} {ptr size : Nat} {bytes : Nat → UInt8} (offset : Nat)
    (fromBuff : List UInt8) (hblock : heap ptr = some ⟨size, bytes⟩) (hroom : offset + fromBuff.length ≤ size)
    : ∃ heap', heap.memmove ptr offset fromBuff = .ok heap' ∧
        heap' ptr = some ⟨size, store bytes offset fromBuff⟩ := by
  simp only [Heap.memmove, hblock]
  rw [if_pos (.inr hroom)]
  exact ⟨_, rfl, by simp⟩

theorem memmove_behind {heap : Heap} {ptr size offset : Nat} {bytes : Nat → UInt8}
    (hblock : heap ptr = some ⟨size, bytes⟩) (hpos : fromBuff.length ≠ 0)
    (hbehind : size < offset + fromBuff.length)
    : heap.memmove ptr offset fromBuff = .error .outOfBounds := by
  simp only [Heap.memmove, hblock]
  rw [if_neg (by omega)]

theorem queued_of_store {heap : Heap} {len : Nat} {bytes bytes' : Nat → UInt8} (h : args.Sound)
    (hblock : args.heap args.sendBuff = some ⟨args.sendBuffLen, bytes⟩)
    (hstored : heap args.sendBuff = some ⟨len, store bytes' args.endPtr fromBuff⟩)
    (hsame : ∀ i < args.endPtr, bytes' i = bytes i) (hroom : args.endPtr + fromBuff.length ≤ len)
    : args.Queued fromBuff
        { args with heap := heap, sendBuffLen := len, endPtr := args.endPtr + fromBuff.length } := by
  refine ⟨⟨Nat.le_trans h.start_le (Nat.le_add_right _ _), hroom, _, hstored⟩, rfl, ?_⟩
  simp only [pending, hblock, hstored, load_store_append bytes' h.start_le]
  congr 1
  apply List.map_congr_left
  intro i hi
  rw [List.mem_range'_1] at hi
  have := h.start_le
  exact hsame i (by omega)

theorem queued_of_fits (h : args.Sound) (hfits : args.Fits fromBuff newPtr)
    : ∃ args', putBytesOnBuff args fromBuff newPtr = .ok args' ∧ args.Queued fromBuff args' := by
  obtain ⟨bytes, hblock⟩ := h.block
  have hend := h.end_le
  by_cases hroom : fromBuff.length ≤ args.sendBuffLen - args.endPtr
  . obtain ⟨heap, hmove, hstored⟩ := memmove_of_block args.endPtr fromBuff hblock (by omega)
    have hqueued : args.Queued fromBuff _ := queued_of_store h hblock hstored (fun _ _ => rfl) (by omega)
    refine ⟨_, ?_, hqueued⟩
    rw [putBytesOnBuff_of_room hroom, hmove]
    rfl
  . obtain ⟨hempty, rfl⟩ := hfits.resolve_left hroom
    have hblock' : args.heap.trashRealloc args.sendBuff args.sendBuff
        (fromBuff.length - (args.sendBuffLen - args.endPtr)) args.sendBuff =
          some ⟨fromBuff.length - (args.sendBuffLen - args.endPtr),
            fun i => if i < args.sendBuffLen then bytes i else 0⟩ := by
      simp [Heap.trashRealloc, hblock]
    obtain ⟨heap, hmove, hstored⟩ := memmove_of_block args.endPtr fromBuff hblock' (by omega)
    have hqueued : args.Queued fromBuff _ :=
      queued_of_store h hblock hstored (fun i hi => by omega) (by omega)
    refine ⟨_, ?_, hqueued⟩
    rw [putBytesOnBuff_of_large hroom (by omega), hmove]
    rfl

theorem fits_of_queued (h : args.Sound) (hput : putBytesOnBuff args fromBuff newPtr = .ok args')
    (hqueued : args.Queued fromBuff args')
    : args.Fits fromBuff newPtr := by
  obtain ⟨bytes, hblock⟩ := h.block
  have hend := h.end_le
  by_contra hfits
  obtain ⟨hroom, hmoved⟩ := not_or.mp hfits
  by_cases hneeded : fromBuff.length - (args.sendBuffLen - args.endPtr) ≤ args.sendBuffLen
  . rw [putBytesOnBuff_of_small hroom hneeded,
      memmove_behind hblock (by omega) (by omega)] at hput
    cases hput
  . rw [putBytesOnBuff_of_large hroom hneeded] at hput
    have hblock' : args.heap.trashRealloc args.sendBuff newPtr
        (fromBuff.length - (args.sendBuffLen - args.endPtr)) newPtr =
          some ⟨fromBuff.length - (args.sendBuffLen - args.endPtr),
            fun i => if i < args.sendBuffLen then bytes i else 0⟩ := by
      simp [Heap.trashRealloc, hblock]
    by_cases hempty : args.sendBuffLen = 0
    . -- The block of the caller is freed.
      have hne : newPtr ≠ args.sendBuff := fun hsame => hmoved ⟨hempty, hsame⟩
      simp only [Heap.memmove, hblock'] at hput
      rw [if_pos (.inr (by omega))] at hput
      cases hput
      obtain ⟨bytes', hfound⟩ := hqueued.sound.block
      simp [Heap.trashRealloc, hblock, hne.symm] at hfound
    . rw [memmove_behind hblock' (by omega) (by omega)] at hput
      cases hput

def put (args : PutArgs) (call : List UInt8 × Nat) : Option PutArgs :=
  (putBytesOnBuff args call.1 call.2).toOption

theorem queued_iff (h : args.Sound)
    : (∀ fromBuff newPtr,
        (∃ args', putBytesOnBuff args fromBuff newPtr = .ok args' ∧ args.Queued fromBuff args')
          ↔
        args.Fits fromBuff newPtr) ∧
      ∀ calls, Lts.Along put (fun args call => args.Fits call.1 call.2) args calls →
        ∃ args', Lts.run put args calls = some args' ∧
          args'.Sound ∧ args'.pending = args.pending ++ calls.flatMap Prod.fst := by
  constructor
  . intro fromBuff newPtr
    constructor
    . rintro ⟨args', hput, hqueued⟩
      exact fits_of_queued h hput hqueued
    . exact queued_of_fits h
  . intro calls
    induction calls generalizing args with
    | nil =>
      intro _
      exact ⟨args, rfl, h, by simp⟩
    | cons call calls ih =>
      intro halong
      obtain ⟨next, hput, hqueued⟩ := queued_of_fits h halong.1
      have hstep : args.put call = some next := by
        rw [put, hput]
        rfl
      obtain ⟨args', hrun, hsound, hpending⟩ := ih hqueued.sound (halong.2 next hstep)
      refine ⟨args', by rw [Lts.run_cons, hstep]; exact hrun, hsound, ?_⟩
      rw [hpending, hqueued.pending, List.flatMap_cons, List.append_assoc]

def eight : PutArgs where
  heap := fun ptr => if ptr = 1 then some ⟨8, fun _ => 7⟩ else none
  sendBuff := 1
  sendBuffLen := 8
  startPtr := 0
  endPtr := 2

theorem sound_eight : eight.Sound := ⟨by decide, by decide, _, rfl⟩

theorem queued_eight
    : (∀ fromBuff newPtr,
        (∃ args', putBytesOnBuff eight fromBuff newPtr = .ok args' ∧ eight.Queued fromBuff args')
          ↔
        eight.Fits fromBuff newPtr) ∧
      ∀ calls, Lts.Along put (fun args call => args.Fits call.1 call.2) eight calls →
        ∃ args', Lts.run put eight calls = some args' ∧
          args'.Sound ∧ args'.pending = eight.pending ++ calls.flatMap Prod.fst :=
  queued_iff sound_eight

/--
Seven more bytes do not fit by one, and one is not more than the length of the buffer.
-/
theorem not_queued_seven
    : eight.Sound ∧
        ¬ ∃ args', putBytesOnBuff eight (List.replicate 7 9) 1 = .ok args' ∧
          eight.Queued (List.replicate 7 9) args' := by
  refine ⟨sound_eight, ?_⟩
  rintro ⟨args', hput, -⟩
  cases hput

end PutArgs

end Buffy
