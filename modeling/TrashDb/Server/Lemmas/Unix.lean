import TrashDb.Server.Unix

/-!
This module contains the round trip of the address of a Unix listener through `on_connect`. It is kept
for a socket in the file system whose path does not begin with an at sign. The length of an abstract
address is computed with `strlen` from a string that begins with its terminator, so that only the
family is recorded and nothing is copied from the listener.
-/

namespace Server

open ByteBlock (Stop)

variable {sockDir : List UInt8} {isSockAbstract : Bool} {taddr localaddr : TrashAddr}

def sockName (sockDir : List UInt8) (isSockAbstract : Bool) : List UInt8 :=
  (if isSockAbstract then [0] else []) ++ sockDir ++ trashSocket

def Covers (taddr : TrashAddr) (name : List UInt8) : Prop :=
  offsetofSunPath + name.length ≤ taddr.addrlen
    ∧ taddr.addr.slice offsetofSunPath name.length = name.map some

def RoundTrips (sockDir : List UInt8) (isSockAbstract : Bool) : Prop :=
  ∃ localaddr remote, initUnixSock ⟨true, true, true⟩ sockDir isSockAbstract = .ok (trashSuccess, localaddr)
    ∧ Covers localaddr (sockName sockDir isSockAbstract) ∧ remoteAddr localaddr = .ok remote
    ∧ family remote = family localaddr ∧ sunPath remote = sunPath localaddr

theorem length_trashSocket : trashSocket.length = 13 := rfl

theorem zero_write_afUnix (size : Nat) (hsize : 2 ≤ size)
    : ∃ addr, (ByteBlock.zero size).write 0 afUnix = .ok addr ∧ addr.size = size
        ∧ addr.byte 0 = some 1 ∧ addr.byte 1 = some 0 ∧ ∀ k, 2 ≤ k → addr.byte k = some 0 := by
  obtain ⟨addr, hwrite, hsz, hin, hout⟩ :=
    ByteBlock.write_eq (ByteBlock.zero size) 0 afUnix hsize
  refine ⟨addr, hwrite, hsz, hin 0 (by decide), hin 1 (by decide), fun k hk => ?_⟩
  rw [hout k (.inr hk)]
  rfl

theorem snprintf_eq_write {addr : ByteBlock} {i : Nat} {text : List UInt8} (htext : text.length < sizeofSunPath)
    : addr.snprintf i sizeofSunPath text = addr.write i (text ++ [0]) := by
  rw [ByteBlock.snprintf, List.take_of_length_le (by omega)]

theorem createUnixSock_file (taddr : TrashAddr) (hfits : sockDir.length + 14 ≤ sizeofSunPath)
    (hsize : taddr.addr.size = sizeofSockaddrStorage)
    : ∃ addr, createUnixSock ⟨true, true, true⟩ taddr sockDir false
          = .ok (trashSuccess, ⟨addr, sizeofSockaddrUn⟩)
        ∧ addr.size = sizeofSockaddrStorage ∧ addr.byte 0 = some 1 ∧ addr.byte 1 = some 0
        ∧ ∀ k (hk : k < (sockDir ++ trashSocket).length),
            addr.byte (offsetofSunPath + k) = some (sockDir ++ trashSocket)[k] := by
  have hlen : (sockDir ++ trashSocket).length < sizeofSunPath := by
    rw [List.length_append, length_trashSocket]
    omega
  obtain ⟨addr₁, hwrite, hsize₁, hlo, hhi, _⟩ := zero_write_afUnix sizeofSockaddrUn (by decide)
  obtain ⟨addr₂, hprintf, hsize₂, hin₂, hout₂⟩ :=
    ByteBlock.write_eq addr₁ (offsetofSunPath + 0) (sockDir ++ trashSocket ++ [0]) (by
      rw [hsize₁, List.length_append, List.length_singleton]
      unfold offsetofSunPath sizeofSockaddrUn sizeofSunPath at *
      omega)
  obtain ⟨addr, hmemcpy, hsize', hin, _⟩ :=
    ByteBlock.memcpy_eq taddr.addr 0 addr₂ 0 sizeofSockaddrUn (by rw [hsize]; decide)
      (by rw [hsize₂, hsize₁]; decide)
  refine ⟨addr, ?_, hsize'.trans hsize, ?_, ?_, ?_⟩
  . simp only [createUnixSock, hwrite, snprintf_eq_write hlen, hprintf, hmemcpy, bind, Except.bind, pure,
      Except.pure, if_true, if_false, reduceCtorEq, and_false, Bool.false_eq_true]
  . have := hin 0 (by decide)
    rw [Nat.zero_add] at this
    rw [this, hout₂ 0 (.inl (by decide)), hlo]
  . have := hin 1 (by decide)
    rw [Nat.zero_add] at this
    rw [this, hout₂ 1 (.inl (by decide)), hhi]
  . intro k hk
    have := hin (offsetofSunPath + k) (by unfold offsetofSunPath sizeofSockaddrUn sizeofSunPath at *; omega)
    rw [Nat.zero_add] at this
    rw [this]
    have := hin₂ k (by simp at hk ⊢; omega)
    rw [Nat.add_zero] at this
    rw [this, List.getElem_append_left hk]

theorem createUnixSock_abstract
    (h : createUnixSock ⟨true, true, true⟩ taddr sockDir true = .ok (trashSuccess, localaddr))
    : localaddr.addrlen = offsetofSunPath := by
  obtain ⟨addr₁, hwrite, hsize₁, _, _, _⟩ := zero_write_afUnix sizeofSockaddrUn (by decide)
  obtain ⟨addr₂, hnul, hsize₂, hin₂, _⟩ :=
    ByteBlock.write_eq addr₁ (offsetofSunPath + 0) [0] (by rw [hsize₁]; decide)
  simp only [createUnixSock, hwrite, hnul, bind, Except.bind, pure, Except.pure, if_true, if_false,
    false_and, Bool.true_eq_false] at h
  cases hprintf : addr₂.snprintf (offsetofSunPath + 1) sizeofSunPath (sockDir ++ trashSocket) with
  | error stop => simp [hprintf] at h
  | ok addr₃ =>
    obtain ⟨hsize₃, hbyte⟩ := ByteBlock.write_frame hprintf (Nat.lt_succ_self offsetofSunPath)
    -- the string at `sun_path` begins with its terminator
    have hlen : addr₃.strlen offsetofSunPath = .ok 0 := by
      apply ByteBlock.strlen_of_zero
      . rw [hsize₃, hsize₂, hsize₁]
        decide
      . rw [hbyte]
        exact hin₂ 0 (by decide)
    simp only [hprintf, hlen, Nat.add_zero] at h
    cases hmemcpy : taddr.addr.memcpy 0 addr₃ 0 offsetofSunPath with
    | error stop => simp [hmemcpy] at h
    | ok addr =>
      simp only [hmemcpy, Except.ok.injEq, Prod.mk.injEq, true_and] at h
      rw [← h]

theorem family_eq_afUnix {addr : ByteBlock} {n : Nat} (hlo : addr.byte 0 = some 1) (hhi : addr.byte 1 = some 0)
    : family ⟨addr, n⟩ = afUnix.map some := by
  simp [family, ByteBlock.slice, offsetofSunPath, afUnix, List.range_succ, hlo, hhi]

theorem remoteAddr_file {addr : ByteBlock} {c : UInt8} (hsize : addr.size = sizeofSockaddrStorage)
    (hlo : addr.byte 0 = some 1) (hhi : addr.byte 1 = some 0) (hc : addr.byte offsetofSunPath = some c)
    : ∃ remote, remoteAddr ⟨addr, sizeofSockaddrUn⟩ = .ok remote ∧ family remote = afUnix.map some
        ∧ (sunPath remote = sunPath ⟨addr, sizeofSockaddrUn⟩ ↔ c ≠ at_) := by
  obtain ⟨path, hpath, hpathsize, hpathin, _⟩ :=
    ByteBlock.memcpy_eq (ByteBlock.uninit sizeofSockaddrUn) 0 addr offsetofSunPath sizeofSunPath (by decide)
      (by rw [hsize]; decide)
  have hfirst : path.read 0 = .ok c := by
    apply ByteBlock.read_eq_ok
    . rw [hpathsize]
      decide
    . have := hpathin 0 (by decide)
      rwa [Nat.zero_add, Nat.add_zero, hc] at this
  have hsock : getSockPath ⟨addr, sizeofSockaddrUn⟩ (.uninit sizeofSockaddrUn) sizeofSockaddrUn
      = .ok path := by
    rw [getSockPath, isUnixSocket, family_eq_afUnix hlo hhi]
    simpa [sizeofSockaddrUn, sizeofSunPath] using hpath
  obtain ⟨addr₁, hwrite, hsize₁, hlo₁, hhi₁, _⟩ := zero_write_afUnix sizeofSockaddrStorage (by decide)
  by_cases hat : c = at_
  . obtain ⟨addr₂, hnul, hsize₂, hin₂, hout₂⟩ :=
      ByteBlock.write_eq addr₁ (offsetofSunPath + 0) [0] (by rw [hsize₁]; decide)
    obtain ⟨addr₃, hmemcpy, hsize₃, hin₃, hout₃⟩ :=
      ByteBlock.memcpy_eq addr₂ (offsetofSunPath + 1) path 1 sizeofSunPath (by rw [hsize₂, hsize₁]; decide)
        (by rw [hpathsize]; decide)
    refine ⟨⟨addr₃, 0⟩, ?_, family_eq_afUnix ?_ ?_, iff_of_false ?_ (not_not_intro hat)⟩
    . simp only [remoteAddr, hsock, setUnixTrashAddr, TrashAddr.zero, hwrite, hfirst, hat, hnul, hmemcpy, bind,
        Except.bind, pure, Except.pure, if_true]
    . rw [hout₃ 0 (.inl (by decide)), hout₂ 0 (.inl (by decide)), hlo₁]
    . rw [hout₃ 1 (.inl (by decide)), hout₂ 1 (.inl (by decide)), hhi₁]
    . intro heq
      have hnul₃ : addr₃.byte offsetofSunPath = some 0 :=
        (hout₃ offsetofSunPath (.inl (by decide))).trans (hin₂ 0 (by decide))
      have hhead := ByteBlock.slice_eq_slice_iff.mp heq 0 (by decide)
      rw [Nat.add_zero, hnul₃, hc, hat] at hhead
      cases hhead
  . obtain ⟨addr₂, hmemcpy, hsize₂, hin₂, hout₂⟩ :=
      ByteBlock.memcpy_eq addr₁ (offsetofSunPath + 0) path 0 sizeofSunPath (by rw [hsize₁]; decide)
        (by rw [hpathsize]; decide)
    refine ⟨⟨addr₂, 0⟩, ?_, family_eq_afUnix ?_ ?_, iff_of_true ?_ hat⟩
    . simp only [remoteAddr, hsock, setUnixTrashAddr, TrashAddr.zero, hwrite, hfirst, hat, hmemcpy, bind,
        Except.bind, pure, Except.pure, if_false]
    . rw [hout₂ 0 (.inl (by decide)), hlo₁]
    . rw [hout₂ 1 (.inl (by decide)), hhi₁]
    . exact ByteBlock.slice_eq_slice_iff.mpr fun k hk => (hin₂ k hk).trans (hpathin k hk)

theorem initUnixSock_eq (answers : Answers) (sockDir : List UInt8) (isSockAbstract : Bool)
    : ∃ addr, addr.size = sizeofSockaddrStorage ∧ initUnixSock answers sockDir isSockAbstract
        = createUnixSock answers ⟨addr, 0⟩ sockDir isSockAbstract := by
  obtain ⟨addr, hwrite, hsize, _⟩ := zero_write_afUnix sizeofSockaddrStorage (by decide)
  exact ⟨addr, hsize, by simp [initUnixSock, TrashAddr.zero, hwrite, bind, Except.bind]⟩

theorem roundTrips_file_iff (hfits : sockDir.length + 14 ≤ sizeofSunPath)
    : RoundTrips sockDir false ↔ sockDir.head? ≠ some at_ := by
  obtain ⟨start, hstart, hinit⟩ := initUnixSock_eq ⟨true, true, true⟩ sockDir false
  obtain ⟨addr, hcreate, hsize, hlo, hhi, hname⟩ := createUnixSock_file ⟨start, 0⟩ hfits hstart
  have hpos : 0 < (sockDir ++ trashSocket).length := by
    rw [List.length_append, length_trashSocket]
    omega
  obtain ⟨remote, hremote, hfamily, hpath⟩ := remoteAddr_file hsize hlo hhi (hname 0 hpos)
  have hfirst : (sockDir ++ trashSocket)[0] ≠ at_ ↔ sockDir.head? ≠ some at_ := by
    cases sockDir with
    | nil => simp [trashSocket, at_]
    | cons c cs => simp
  rw [← hfirst, ← hpath]
  constructor
  . rintro ⟨localaddr, remote', hrun, _, hremote', _, heq⟩
    rw [hinit, hcreate] at hrun
    cases hrun
    cases hremote.symm.trans hremote'
    exact heq
  . intro heq
    refine ⟨⟨addr, sizeofSockaddrUn⟩, remote, hinit.trans hcreate, ⟨?_, ?_⟩, hremote, ?_, heq⟩
    . simp only [sockName, Bool.false_eq_true, if_false, List.nil_append, List.length_append, length_trashSocket]
      unfold offsetofSunPath sizeofSockaddrUn sizeofSunPath at *
      omega
    . exact ByteBlock.slice_eq_map hname
    . rw [hfamily, family_eq_afUnix hlo hhi]

theorem not_roundTrips_abstract (sockDir : List UInt8) : ¬ RoundTrips sockDir true := by
  rintro ⟨localaddr, _, hrun, ⟨hcovers, _⟩, _⟩
  obtain ⟨start, _, hinit⟩ := initUnixSock_eq ⟨true, true, true⟩ sockDir true
  rw [hinit] at hrun
  rw [createUnixSock_abstract hrun] at hcovers
  have hpos : 0 < (sockName sockDir true).length := by
    rw [sockName, List.length_append, length_trashSocket]
    omega
  omega

theorem roundTrips_iff (hfits : sockDir.length + 14 ≤ sizeofSunPath)
    : RoundTrips sockDir isSockAbstract ↔ isSockAbstract = false ∧ sockDir.head? ≠ some at_ := by
  cases isSockAbstract with
  | false => simpa using roundTrips_file_iff hfits
  | true => simpa using not_roundTrips_abstract sockDir

theorem roundTrips_tmp : RoundTrips [47, 116, 109, 112] false :=
  (roundTrips_iff (by decide)).mpr ⟨rfl, by decide⟩

theorem not_roundTrips_abstract_tmp : ¬ RoundTrips [47, 116, 109, 112] true :=
  not_roundTrips_abstract [47, 116, 109, 112]

end Server
