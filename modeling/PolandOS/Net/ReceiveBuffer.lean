import PolandOS.Net.ReceiveBounds

/-! # The receive buffer of a TCP socket is a queue

What a socket holds for the application: segments append to it (`contents_store`) and
`tcp_recv` takes from its front (`contents_take`).
-/

namespace PolandOS.Net

/-! ## Views -/

@[simp] theorem length_bytes (v : View) (offset len : Nat) : (v.bytes offset len).length = len := by
  simp [View.bytes]

theorem bytes_append (v : View) (offset m n : Nat) :
    v.bytes offset (m + n) = v.bytes offset m ++ v.bytes (offset + m) n := by
  simp only [View.bytes, List.range_add, List.map_append, List.map_map]
  congr 1
  refine List.map_congr_left ?_
  intro i _
  simp [Nat.add_assoc]

theorem bytes_write_below (v : View) {offset : Nat} (bs : List UInt8) {a n : Nat}
    (h : a + n ≤ offset) : (v.write offset bs).bytes a n = v.bytes a n := by
  refine List.map_congr_left ?_
  intro i hi
  have hlt := List.mem_range.mp hi
  exact if_neg (by omega)

theorem bytes_write_self (v : View) (offset : Nat) (bs : List UInt8) :
    (v.write offset bs).bytes offset bs.length = bs := by
  refine List.ext_getElem (by simp) ?_
  intro i hi hi'
  simp [View.bytes, View.write, hi']

/-! ## Sockets -/

/-- The bytes that a socket holds for `tcp_recv`. -/
def TCPSocket.contents (socket : TCPSocket) : List UInt8 :=
  socket.recvBuf.bytes 0 socket.recvLen.toNat

theorem storeCount_le_length (socket : TCPSocket) (seg : Segment) :
    (storeCount socket seg).toNat ≤ seg.data.length := by
  have hwrap : seg.data.length.toUInt32.toNat ≤ seg.data.length := Nat.mod_le _ _
  unfold storeCount
  split
  · exact hwrap
  next hlt => exact (UInt32.le_iff_toNat_le.mp (UInt32.not_lt.mp hlt)).trans hwrap

/-- A segment is appended as far as it is stored. -/
theorem contents_store {socket : TCPSocket} (seg : Segment) (h : socket.recvLen ≤ 4096) :
    (socket.store seg).contents =
      socket.contents ++ seg.data.take (storeCount socket seg).toNat := by
  have hfit := recvLen_add_storeCount seg h
  have hlen : (socket.store seg).recvLen.toNat =
      socket.recvLen.toNat + (storeCount socket seg).toNat := by
    simp only [TCPSocket.store, UInt32.toNat_add]
    omega
  have htake : (seg.data.take (storeCount socket seg).toNat).length =
      (storeCount socket seg).toNat :=
    List.length_take_of_le (storeCount_le_length socket seg)
  have hbuf : (socket.store seg).recvBuf = socket.recvBuf.write socket.recvLen.toNat
      (seg.data.take (storeCount socket seg).toNat) := rfl
  have hself := bytes_write_self socket.recvBuf socket.recvLen.toNat
    (seg.data.take (storeCount socket seg).toNat)
  rw [htake] at hself
  rw [TCPSocket.contents, hlen, bytes_append, hbuf,
    bytes_write_below _ _ (Nat.le_of_eq (Nat.zero_add _)), Nat.zero_add, hself]
  rfl

/-- The socket behind `tcp_recv` has taken `count` bytes. -/
def TCPSocket.take (socket : TCPSocket) (count : UInt32) : TCPSocket :=
  { socket with
    recvBuf := socket.recvBuf.write 0
      (socket.recvBuf.bytes count.toNat (socket.recvLen - count).toNat)
    recvLen := socket.recvLen - count }

/-- What is taken comes off the front. -/
theorem contents_take {socket : TCPSocket} {count : UInt32} (h : count ≤ socket.recvLen) :
    socket.contents = socket.recvBuf.bytes 0 count.toNat ++ (socket.take count).contents := by
  have hsub : (socket.recvLen - count).toNat = socket.recvLen.toNat - count.toNat :=
    UInt32.toNat_sub_of_le _ _ h
  have hle : count.toNat ≤ socket.recvLen.toNat := UInt32.le_iff_toNat_le.mp h
  have hself := bytes_write_self socket.recvBuf 0
    (socket.recvBuf.bytes count.toNat (socket.recvLen - count).toNat)
  rw [length_bytes] at hself
  have hrest : (socket.take count).contents =
      socket.recvBuf.bytes count.toNat (socket.recvLen - count).toNat := hself
  have hsplit : socket.recvLen.toNat = count.toNat + (socket.recvLen - count).toNat := by omega
  rw [hrest, TCPSocket.contents, hsplit, bytes_append, Nat.zero_add]

/-! ## Records next to the slots -/

/-- Every socket agrees with what is recorded of its slot. -/
def Slotwise {γ : Type} (I : TCPSocket → γ → Prop) (T : Slots) (g : Fin 4 → γ) : Prop :=
  ∀ fd, I (T.1 fd) (g fd)

section Slotwise

variable {γ : Type} {I : TCPSocket → γ → Prop} {T : Slots} {g : Fin 4 → γ} {fd : Fin 4}
  {socket : TCPSocket}

/-- A socket and its record are changed. -/
theorem Slotwise.set (h : Slotwise I T g) {x : γ} (hfd : I socket x) :
    Slotwise I (setSlot T fd socket) (Function.update g fd x) := by
  intro i
  by_cases hi : i = fd
  · subst hi
    rwa [setSlot_self, Function.update_self]
  · rw [setSlot_ne T socket hi, Function.update_of_ne hi]
    exact h i

/-- Only the socket is changed. -/
theorem Slotwise.same (h : Slotwise I T g) (hfd : I socket (g fd)) :
    Slotwise I (setSlot T fd socket) g := by
  have hset : Slotwise I (setSlot T fd socket) (Function.update g fd (g fd)) := h.set hfd
  rwa [Function.update_eq_self] at hset

end Slotwise

end PolandOS.Net
