import TrashDb.Buffy.Impl

/-!
This module contains what becomes of a stream of messages. A message that the callback finds complete
in its buffer is sent on without its bytes, and one that is too long for the buffer makes the callback
read behind its end. So as soon as there is a message, it is enough that the kernel hands out as much
as it can.
-/

open Word

namespace Buffy

structure Api.Lawful (api : Api) : Prop where
  valid : ∀ len, api.msgLenValid len = true ↔ minPacketLen ≤ len ∧ len ≤ maxPacketLen
  appends : ∀ msg bytes, api.addBytesToMessage msg bytes = msg ++ bytes

def Event.received : Event → List UInt8
  | .bytes bs => bs
  | .eintr | .wouldBlock | .hangup => []

/--
A way in which the bytes of a stream arrive, one after the other and none of them twice.
-/
structure IsSplit (kernel : List Event) (stream : List UInt8) : Prop where
  stream : kernel.flatMap Event.received = stream
  nonempty : ∀ bs, .bytes bs ∈ kernel → bs ≠ []
  stays : .hangup ∉ kernel

def encode (payloads : List (List UInt8)) : List UInt8 := payloads.flatMap constructMessage

def Assembles (api : Api) (td : TrashData) (payloads : List (List UInt8)) : Prop :=
  ∃ n turns, ∀ n' ≥ n, ∀ turns' ≥ turns, ∃ td',
    td.callbacks api turns' n' = .ok td' ∧ td'.sent = payloads

/--
The payloads are assembled however their bytes arrive.
-/
def Framed (api : Api) (recvBuff : Nat → UInt8) (payloads : List (List UInt8)) : Prop :=
  ∀ kernel, IsSplit kernel (encode payloads) → Assembles api (constructClient kernel recvBuff) payloads

theorem htonl_digits {a b c d : Nat} (ha : a < 256) (hb : b < 256) (hc : c < 256) (hd : d < 256)
    : htonl (d * 2 ^ 24 + c * 2 ^ 16 + b * 2 ^ 8 + a) = a * 2 ^ 24 + b * 2 ^ 16 + c * 2 ^ 8 + d := by
  have h0 : (d * 2 ^ 24 + c * 2 ^ 16 + b * 2 ^ 8 + a) % 256 = a := by omega
  have h1 : (d * 2 ^ 24 + c * 2 ^ 16 + b * 2 ^ 8 + a) / 2 ^ 8 % 256 = b := by omega
  have h2 : (d * 2 ^ 24 + c * 2 ^ 16 + b * 2 ^ 8 + a) / 2 ^ 16 % 256 = c := by omega
  have h3 : (d * 2 ^ 24 + c * 2 ^ 16 + b * 2 ^ 8 + a) / 2 ^ 24 % 256 = d := by omega
  rw [htonl, h0, h1, h2, h3]

theorem htonl_htonl {n : Nat} (h : n < 2 ^ 32) : htonl (htonl n) = n := by
  have hmod : ∀ m : Nat, m % 256 < 256 := fun m => Nat.mod_lt _ (by decide)
  calc
    htonl (htonl n)
        = n / 2 ^ 24 % 256 * 2 ^ 24 + n / 2 ^ 16 % 256 * 2 ^ 16 + n / 2 ^ 8 % 256 * 2 ^ 8 + n % 256 :=
      htonl_digits (hmod _) (hmod _) (hmod _) (hmod _)
    _ = n := by omega

theorem word_bytes {n : Nat} (h : n < 2 ^ 32) (rest : List UInt8)
    : word ((List.range 4).map (fun i => UInt8.ofNat (n / 2 ^ (i * 8) % 256)) ++ rest) = n := by
  have hbyte : ∀ m : Nat, (UInt8.ofNat (m % 256)).toNat = m % 256 := by
    intro m
    rw [UInt8.toNat_ofNat']
    omega
  simp only [word, List.range, List.range.loop, List.map_cons, List.map_nil, List.cons_append,
    List.getD_cons_zero, List.getD_cons_succ, hbyte]
  omega

theorem length_constructMessage (p : List UInt8) : (constructMessage p).length = 4 + p.length := by
  simp [constructMessage]

theorem header_constructMessage {p : List UInt8} (rest : List UInt8) (h : p.length ≤ maxPacketLen)
    : sub32 (htonl (word ((constructMessage p ++ rest).take 4))) 4 = p.length := by
  have hlt : 4 + p.length < 2 ^ 32 := by
    unfold maxPacketLen at h
    omega
  have hhead : (constructMessage p ++ rest).take 4 =
      (List.range 4).map (fun i => UInt8.ofNat (htonl (4 + p.length) / 2 ^ (i * 8) % 256)) ++ [] := by
    rw [constructMessage, List.append_assoc, List.append_nil]
    apply List.take_left'
    simp
  have hword : htonl (4 + p.length) < 2 ^ 32 := by
    unfold htonl
    omega
  rw [hhead, word_bytes hword, htonl_htonl hlt, sub32_of_le (by omega)]
  omega

theorem load_store {buff : Nat → UInt8} {bytes : List UInt8} {offset len : Nat}
    (h : offset + len ≤ bytes.length)
    : load (store buff 0 bytes) offset len = (bytes.drop offset).take len := by
  apply List.ext_getElem
  . simp [load]
    omega
  . intro i hi hi'
    have hlt : i < len := by simpa [load] using hi
    have hpos : offset + i < bytes.length := by omega
    simp only [load, store, List.getElem_map, List.getElem_range', Nat.one_mul, List.getElem_take,
      List.getElem_drop]
    rw [if_pos (by omega)]
    simp [hpos]

def Pass.td : Pass → TrashData
  | .getMoreData _ td | .done td => td

namespace TrashData

variable {api : Api} {td td' : TrashData}

theorem recvLoop_sent {kernel : List Event} {rc : Int} (h : td.recvLoop kernel = .ok (rc, td'))
    : td'.sent = td.sent := by
  induction kernel with
  | nil =>
    cases h
    rfl
  | cons e kernel ih =>
    cases e with
    | eintr => exact ih h
    | wouldBlock =>
      cases h
      rfl
    | hangup =>
      cases h
      rfl
    | bytes bs =>
      simp only [recvLoop] at h
      split at h
      . cases h
        rfl
      . split at h
        . cases h
          rfl
        . cases h

theorem getBytesFromKernel_sent {rc : Int} (h : td.getBytesFromKernel = .ok (rc, td'))
    : td'.sent = td.sent := by
  unfold getBytesFromKernel at h
  generalize hreset : (if td.recvBuffPtr ≥ td.recvBuffLen then
    { td with recvBuffPtr := 0, recvBuffLen := 0 } else td) = td1 at h
  have hsent : td1.sent = td.sent := by
    rw [← hreset]
    split <;> rfl
  dsimp only at h
  split at h
  . split at h
    . exact (recvLoop_sent h).trans hsent
    . cases h
  . exact (recvLoop_sent h).trans hsent

theorem getBytesFromBuff_sent {n : Nat} {strg : List UInt8} (h : td.getBytesFromBuff n = .ok (strg, td'))
    : td'.sent = td.sent := by
  unfold getBytesFromBuff at h
  dsimp only at h
  generalize (if n < sub32 td.recvBuffLen td.recvBuffPtr % 2 ^ 16 then n
    else sub32 td.recvBuffLen td.recvBuffPtr % 2 ^ 16) = amnt at h
  split at h
  . cases h
    rfl
  . cases h

theorem deliver_sent {availBytes : Nat} {p : Pass} (h : deliver api td' availBytes = .ok p)
    (hsent : td'.sent = td.sent)
    : td.sent <+: p.td.sent := by
  rw [← hsent]
  unfold deliver at h
  split at h
  . split at h
    . dsimp only at h
      split at h
      . cases h
        exact List.prefix_rfl
      . cases h
        exact List.prefix_append _ _
    . cases h
  . cases h
    exact List.prefix_append _ _

theorem assemble_sent {availBytes : Nat} {p : Pass} (h : assemble api td availBytes = .ok p)
    : td.sent <+: p.td.sent := by
  unfold assemble at h
  dsimp only at h
  split at h
  . exact deliver_sent h rfl
  . split at h
    . cases h
      exact List.prefix_rfl
    . split at h
      . cases h
      . next strg td1 hbuff =>
        rw [← getBytesFromBuff_sent hbuff]
        split at h
        . cases h
        . split at h
          . exact deliver_sent h rfl
          . cases h
            exact List.prefix_rfl

theorem receive_sent {availBytes : Option Nat} {res : Pass ⊕ (Option Nat × TrashData)}
    (h : td.receive availBytes = .ok res)
    : (res.elim Pass.td Prod.snd).sent = td.sent := by
  unfold receive at h
  split at h
  . split at h
    . cases h
    . next rc td1 hkernel =>
      rw [← getBytesFromKernel_sent hkernel]
      split at h
      . cases h
        rfl
      . split at h
        . cases h
          rfl
        . split at h <;> cases h <;> rfl
  . cases h
    rfl

theorem pass_sent {availBytes : Option Nat} {p : Pass} (h : td.pass api availBytes = .ok p)
    : td.sent <+: p.td.sent := by
  unfold pass at h
  split at h
  . cases h
  . next hreceive =>
    cases h
    rw [← receive_sent hreceive]
    exact List.prefix_rfl
  . cases h
  . next hreceive =>
    have := receive_sent hreceive
    rw [← this]
    exact assemble_sent h

theorem readLoop_sent {turns : Nat} {availBytes : Option Nat}
    (h : readLoop api turns td availBytes = .ok td')
    : td.sent <+: td'.sent := by
  induction turns generalizing td availBytes with
  | zero => cases h
  | succ turns ih =>
    unfold readLoop at h
    split at h
    . cases h
    . next hpass =>
      cases h
      exact pass_sent hpass
    . next hpass => exact (pass_sent hpass).trans (ih h)

theorem callbacks_sent {turns n : Nat} (h : td.callbacks api turns n = .ok td')
    : td.sent <+: td'.sent := by
  induction n generalizing td with
  | zero =>
    cases h
    exact List.prefix_rfl
  | succ n ih =>
    unfold callbacks at h
    split at h
    . cases h
      exact List.prefix_rfl
    . split at h
      . cases h
      . next hcb => exact (readLoop_sent hcb).trans (ih h)

theorem receive_greedy (recvBuff : Nat → UInt8) {stream : List UInt8} (h : stream ≠ [])
    : ∃ td kernel, (constructClient [.bytes stream] recvBuff).receive none =
          .ok (.inr (some (min stream.length recvBuffySize), td)) ∧
        td =
          {
            constructClient kernel (store recvBuff 0 (stream.take (min stream.length recvBuffySize))) with
            recvBuffLen := min stream.length recvBuffySize
          } := by
  have hpos : 0 < stream.length := List.length_pos_of_ne_nil h
  have hmin : min stream.length recvBuffySize ≠ 0 := by
    unfold recvBuffySize
    omega
  have hle : min stream.length recvBuffySize ≤ recvBuffySize := Nat.min_le_right _ _
  have hadd : add32 0 (min stream.length recvBuffySize) = min stream.length recvBuffySize := by
    rw [add32_of_lt, Nat.zero_add]
    unfold recvBuffySize at hle ⊢
    omega
  refine ⟨_, (if min stream.length recvBuffySize < stream.length
    then [.bytes (stream.drop (min stream.length recvBuffySize))] else []), ?_, rfl⟩
  simp only [receive, recvSpace, getBytesFromKernel, constructClient, recvLoop, ge_iff_le, Nat.le_refl,
    if_true, Nat.lt_irrefl, gt_iff_lt, if_false, sub32_of_le (Nat.zero_le _), Nat.sub_zero, hmin, hle,
    hadd, bytesRecv, eof, trashError, trashSuccess]
  rw [if_pos (by decide), if_neg (by decide), if_neg (by decide)]

theorem assemble_header {n : Nat} {p stream : List UInt8} (hapi : api.Lawful)
    (hmin : minPacketLen ≤ p.length) (hmax : p.length ≤ maxPacketLen) (hn : 4 < n)
    (hsize : n ≤ recvBuffySize) (hpart : td.partialMsg = false) (hptr : td.recvBuffPtr = 0)
    (hlen : td.recvBuffLen = n) (hload : load td.recvBuff 0 4 = (constructMessage p ++ stream).take 4)
    : assemble api td n =
        deliver api
          {
            td with
            recvBuffPtr := 4
            remainingMsg := p.length - min p.length n
            partialMsg := decide (p.length - min p.length n > 0)
          }
          (min p.length n) := by
  have hbuff : td.getBytesFromBuff 4 =
      .ok ((constructMessage p ++ stream).take 4, { td with recvBuffPtr := 4 }) := by
    unfold recvBuffySize at hsize
    have hamnt : n % 2 ^ 16 = n := by omega
    simp only [getBytesFromBuff, hptr, hlen, sub32_of_le (Nat.zero_le _), Nat.sub_zero, hamnt, if_pos hn,
      hload, add32, recvBuffySize]
    exact if_pos (by decide)
  have hstrg : ((constructMessage p ++ stream).take 4).length = 4 := by
    rw [List.length_take, List.length_append, length_constructMessage]
    omega
  have hvalid : api.msgLenValid p.length = true := (hapi.valid _).mpr ⟨hmin, hmax⟩
  have havail : (if p.length < n then p.length else n) = min p.length n := by
    split <;> omega
  simp only [assemble, hpart, trashMsgLen, hbuff, hstrg, header_constructMessage stream hmax, hvalid,
    havail]
  rw [if_neg (by decide), if_neg (by omega), if_neg (by decide), if_pos trivial]

theorem deliver_whole {n : Nat} (hpart : td.partialMsg = false)
    : deliver api td n = .ok (.done td.dataSend) := by
  simp [deliver, hpart]

theorem deliver_behind {n : Nat} (hpart : td.partialMsg = true)
    (hbehind : recvBuffySize < td.recvBuffPtr + n)
    : deliver api td n = .error .outOfBounds := by
  rw [deliver, if_pos hpart, if_neg (by omega)]

theorem bufferReadCb_greedy {turns : Nat} {p : List UInt8} (ps : List (List UInt8)) (hapi : api.Lawful)
    (hmin : minPacketLen ≤ p.length) (hmax : p.length ≤ maxPacketLen) (recvBuff : Nat → UInt8)
    : (constructClient [.bytes (encode (p :: ps))] recvBuff).bufferReadCb api (turns + 1) =
        .error .outOfBounds ∨
      ∃ td, (constructClient [.bytes (encode (p :: ps))] recvBuff).bufferReadCb api (turns + 1) = .ok td ∧
        td.sent = [[]] := by
  have hstream : encode (p :: ps) = constructMessage p ++ encode ps := rfl
  have hlong : 4 + p.length ≤ (encode (p :: ps)).length := by
    rw [hstream, List.length_append, length_constructMessage]
    omega
  have hne : encode (p :: ps) ≠ [] := by
    apply List.ne_nil_of_length_pos
    omega
  obtain ⟨td, kernel, hreceive, htd⟩ := receive_greedy recvBuff hne
  have hn : 4 < min (encode (p :: ps)).length recvBuffySize := by
    unfold recvBuffySize minPacketLen at *
    omega
  have hload : load td.recvBuff 0 4 = (constructMessage p ++ encode ps).take 4 := by
    rw [htd]
    show load (store recvBuff 0 _) 0 4 = _
    rw [load_store, List.drop_zero, List.take_take, Nat.min_eq_left (Nat.le_of_lt hn), hstream]
    rw [List.length_take]
    omega
  have hassemble := assemble_header hapi hmin hmax hn (Nat.min_le_right _ _) (by rw [htd]; rfl)
    (by rw [htd]; rfl) (by rw [htd]) hload
  simp only [bufferReadCb, readLoop, pass, hreceive, hassemble]
  by_cases hwhole : p.length ≤ min (encode (p :: ps)).length recvBuffySize
  . right
    rw [deliver_whole (by simp only [decide_eq_false_iff_not]; omega)]
    refine ⟨_, rfl, ?_⟩
    rw [htd]
    rfl
  . left
    rw [deliver_behind (by simp only [decide_eq_true_eq]; omega)]
    show recvBuffySize < 4 + _
    unfold recvBuffySize at *
    omega

end TrashData

theorem not_assembles_greedy {api : Api} {p : List UInt8} (ps : List (List UInt8)) (hapi : api.Lawful)
    (hmin : minPacketLen ≤ p.length) (hmax : p.length ≤ maxPacketLen) (recvBuff : Nat → UInt8)
    : ¬ Assembles api (constructClient [.bytes (encode (p :: ps))] recvBuff) (p :: ps) := by
  rintro ⟨n, turns, h⟩
  obtain ⟨td, hrun, hsent⟩ := h (n + 1) (Nat.le_succ n) (turns + 1) (Nat.le_succ turns)
  have hopen : (constructClient [.bytes (encode (p :: ps))] recvBuff).closed = false := rfl
  rw [TrashData.callbacks, hopen] at hrun
  obtain hcb | ⟨td1, hcb, hsent1⟩ := TrashData.bufferReadCb_greedy ps hapi hmin hmax recvBuff
  . rw [hcb] at hrun
    cases hrun
  . rw [hcb] at hrun
    obtain ⟨more, hmore⟩ := TrashData.callbacks_sent hrun
    rw [hsent1, hsent] at hmore
    cases hmore
    cases hmin

theorem isSplit_greedy {stream : List UInt8} (h : stream ≠ []) : IsSplit [.bytes stream] stream := by
  constructor
  . simp [Event.received]
  . intro bs hbs
    simp only [List.mem_singleton, Event.bytes.injEq] at hbs
    rw [hbs]
    exact h
  . simp

theorem TrashData.recvLoop_nothing {td : TrashData} {kernel : List Event} (h : IsSplit kernel [])
    : ∃ kernel', td.recvLoop kernel = .ok (trashError, { td with kernel := kernel' }) := by
  induction kernel with
  | nil => exact ⟨[], rfl⟩
  | cons e kernel ih =>
    have htail : IsSplit kernel [] := by
      refine ⟨?_, fun bs hbs => h.nonempty bs (List.mem_cons_of_mem _ hbs),
        fun hk => h.stays (List.mem_cons_of_mem _ hk)⟩
      have := h.stream
      rw [List.flatMap_cons, List.append_eq_nil_iff] at this
      exact this.2
    cases e with
    | eintr => exact ih htail
    | wouldBlock => exact ⟨kernel, rfl⟩
    | hangup => exact absurd (List.mem_cons_self ..) h.stays
    | bytes bs =>
      have := h.stream
      rw [List.flatMap_cons, List.append_eq_nil_iff] at this
      exact absurd this.1 (h.nonempty bs (List.mem_cons_self ..))

theorem framed_nil (api : Api) (recvBuff : Nat → UInt8) : Framed api recvBuff [] := by
  intro kernel hsplit
  refine ⟨0, 1, fun n _ turns hturns => ?_⟩
  cases n with
  | zero => exact ⟨_, rfl, rfl⟩
  | succ n =>
    obtain ⟨turns, rfl⟩ : ∃ t, turns = t + 1 := ⟨turns - 1, by omega⟩
    obtain ⟨kernel', hrecv⟩ :=
      @TrashData.recvLoop_nothing (constructClient kernel recvBuff) kernel hsplit
    have hclose : (constructClient kernel recvBuff).bufferReadCb api (turns + 1) =
        .ok { constructClient kernel' recvBuff with closed := true } := by
      have hkernel : (constructClient kernel recvBuff).getBytesFromKernel =
          .ok (trashError, constructClient kernel' recvBuff) := hrecv
      simp only [TrashData.bufferReadCb, TrashData.readLoop, TrashData.pass, TrashData.receive, hkernel]
      rfl
    rw [TrashData.callbacks, show (constructClient kernel recvBuff).closed = false from rfl, hclose]
    cases n with
    | zero => exact ⟨_, rfl, rfl⟩
    | succ n => exact ⟨_, rfl, rfl⟩

theorem framed_iff {api : Api} {payloads : List (List UInt8)} (hapi : api.Lawful)
    (hlen : ∀ p ∈ payloads, minPacketLen ≤ p.length ∧ p.length ≤ maxPacketLen)
    (recvBuff : Nat → UInt8)
    : Framed api recvBuff payloads ↔ payloads = [] := by
  constructor
  . intro h
    cases payloads with
    | nil => rfl
    | cons p ps =>
      obtain ⟨hmin, hmax⟩ := hlen p (List.mem_cons_self ..)
      have hne : encode (p :: ps) ≠ [] := by
        apply List.ne_nil_of_length_pos
        rw [encode, List.flatMap_cons, List.length_append, length_constructMessage]
        omega
      exact absurd (h _ (isSplit_greedy hne)) (not_assembles_greedy ps hapi hmin hmax recvBuff)
  . rintro rfl
    exact framed_nil api recvBuff

/--
The two functions as their names and the constants of `protocol.h` describe them.
-/
def stdApi : Api where
  msgLenValid len := minPacketLen ≤ len ∧ len ≤ maxPacketLen
  addBytesToMessage msg bytes := msg ++ bytes

theorem lawful_stdApi : stdApi.Lawful := by
  constructor
  . intro len
    simp [stdApi]
  . intro msg bytes
    rfl

def hello : List UInt8 := [104, 101, 108, 108, 111]

theorem framed_only_empty
    : Framed stdApi (fun _ => 0) [] ∧ ¬ Framed stdApi (fun _ => 0) [hello, hello ++ hello] := by
  constructor
  . exact (framed_iff lawful_stdApi (by decide) _).mpr rfl
  . intro h
    cases (framed_iff lawful_stdApi (by decide) _).mp h

/--
The nine bytes of the message arrive together, and an empty message is sent on.
-/
theorem not_framed_hello : ¬ Framed stdApi (fun _ => 0) [hello] := by
  intro h
  exact not_assembles_greedy [] lawful_stdApi (p := hello) (by decide) (by decide) _
    (h _ (isSplit_greedy (by decide)))

end Buffy
