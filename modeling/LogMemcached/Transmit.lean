import LogMemcached.Messages
import LogMemcached.Network
import LogMemcached.Lib.Run

/-!
# Sending a response

`transmit` hands the current message to `sendmsg`, removes the entries that were written from the
front of the message, and shortens the one that was written in part.  In `conn_mwrite` it is called
until the response is complete or the connection fails; on a UDP connection the headers are filled
in before each call until the first datagram is behind.
-/

namespace LogMemcached

open Transition

/-- The socket at a call of `sendmsg`: a stream takes at most `room + 1` bytes, and a datagram socket
one datagram; or it would block, where `update_event` may fail; or it is broken. -/
inductive Socket
  | takes (room : ℕ)
  | blocked (updated : Bool)
  | broken
deriving DecidableEq, Repr

/-- The result of `sendmsg`: the number of bytes, `EAGAIN`, or another error. -/
inductive Sent
  | bytes (n : ℕ)
  | again (updated : Bool)
  | error
deriving DecidableEq, Repr

/-- `sendmsg` for `iovlen` entries of `total` bytes; without bytes it does not block. -/
def sendmsg (udp : Bool) (iovlen total : ℕ) : Socket → Sent
  | .broken => .error
  | .blocked updated => if iovMax < iovlen then .error else if total = 0 then .bytes 0 else .again updated
  | .takes room =>
      if iovMax < iovlen then .error else .bytes (if udp then total else min (room + 1) total)

/-- The UDP header of datagram `i` of `n`. -/
def udpHeader (requestId i n : ℕ) : List UInt8 :=
  [requestId / 256, requestId % 256, i / 256, i % 256, n / 256, n % 256, 0, 0].map UInt8.ofNat

namespace Outgoing

/-- The header of a message is written to `hdrbuf` and attached to its first entry. -/
def attachHeader (c : Outgoing) (i : ℕ) : Outgoing :=
  match c.msglist[i]? with
  | none => c
  | some m =>
      { c.writeIov m.msgIov ⟨.hdr (udpHeaderSize * i), udpHeaderSize⟩ with
        hdrbuf := c.hdrbuf.take (udpHeaderSize * i) ++
          udpHeader c.requestId i c.msglist.length ++
          c.hdrbuf.drop (udpHeaderSize * i + udpHeaderSize) }

def growHdrbuf (c : Outgoing) : Outgoing :=
  let size := c.msglist.length * 2
  if c.msglist.length > c.hdrsize then
    { c with
      hdrbuf := c.hdrbuf ++ List.replicate (size * udpHeaderSize - c.hdrbuf.length) 0
      hdrsize := size }
  else c

/-- `build_udp_headers`. -/
def buildUdpHeaders (c : Outgoing) : Outgoing :=
  (List.range c.msglist.length).foldl attachHeader c.growHdrbuf

/-- The bytes of a message; `none` when its entries are outside the list or point at nothing. -/
def gather (c : Outgoing) (m : Msghdr) : Option (List UInt8) :=
  let entries := (c.iov.drop m.msgIov.index).take m.msgIovlen
  if m.msgIov.block = c.block ∧ entries.length = m.msgIovlen ∧
      ∀ v ∈ entries, (v.bytes c.hdrbuf).length = v.len then
    some (entries.flatMap (Iovec.bytes c.hdrbuf))
  else none

/-- Remove the completed entries from a message: `msg_iovlen`, the index of `msg_iov` and the bytes
written of the next entry. -/
def retire (iov : List Iovec) : ℕ → ℕ → ℕ → Option (ℕ × ℕ × ℕ)
  | 0, index, res => some (0, index, res)
  | iovlen + 1, index, res =>
      iov[index]?.bind fun v =>
        if v.len ≤ res then retire iov iovlen (index + 1) (res - v.len)
        else some (iovlen + 1, index, res)

/-- The current message after `res` of its bytes have been written. -/
def written (c : Outgoing) (m : Msghdr) (res : ℕ) : Option Outgoing :=
  (retire c.iov m.msgIovlen m.msgIov.index res).bind fun (iovlen, index, res) =>
    let c := { c with msglist := c.msglist.set c.msgcurr ⟨⟨m.msgIov.block, index⟩, iovlen⟩ }
    if res > 0 then
      c.iov[index]?.map fun v =>
        c.writeIov ⟨m.msgIov.block, index⟩ ⟨v.base.advance res, v.len - res⟩
    else some c

def nextMsg (c : Outgoing) : Outgoing :=
  if c.msglist[c.msgcurr]?.any (·.msgIovlen == 0) then { c with msgcurr := c.msgcurr + 1 } else c

/-- The rest of `transmit`, for the current message. -/
def sendMsg (c : Outgoing) (socket : Socket) (m : Msghdr) :
    Option (Outgoing × TransmitResult × List UInt8) :=
  (c.gather m).bind fun content =>
    match sendmsg c.udp m.msgIovlen content.length socket with
    | .bytes 0 => some (c, .hardError, [])
    | .bytes (n + 1) =>
        (c.written m (n + 1)).map fun c => (c, .incomplete, content.take (n + 1))
    | .again updated => some (c, if updated then .softError else .hardError, [])
    | .error => some (c, .hardError, [])

/-- `transmit`, with the bytes that `sendmsg` takes. -/
def transmit (c : Outgoing) (socket : Socket) : Option (Outgoing × TransmitResult × List UInt8) :=
  let c := c.nextMsg
  match c.msglist[c.msgcurr]? with
  | none => some (c, .complete, [])
  | some m => c.sendMsg socket m

/-- A turn in `conn_mwrite`. -/
def mwrite (c : Outgoing) (socket : Socket) : Option (Outgoing × TransmitResult × List UInt8) :=
  (if c.udp && c.msgcurr == 0 then c.buildUdpHeaders else c).transmit socket

end Outgoing

/-- A response on its way: what `sendmsg` has taken in each call, and the last result. -/
structure Transfer where
  conn : Outgoing
  sent : List (List UInt8)
  result : Option TransmitResult
deriving DecidableEq, Repr

namespace Transfer

/-- The connection stays in `conn_mwrite`. -/
def Running (t : Transfer) : Prop := t.result ≠ some .complete ∧ t.result ≠ some .hardError

def Step (t : Transfer) (socket : Socket) (t' : Transfer) : Prop :=
  t.Running ∧ ∃ c result content, t.conn.mwrite socket = some (c, result, content) ∧
    t' = ⟨c, if content = [] then t.sent else t.sent ++ [content], some result⟩

end Transfer

/-! ## The bytes that are left -/

theorem IovBase.advance_zero (base : IovBase) : base.advance 0 = base := by
  cases base <;> rfl

def contents (vs : List Iovec) : List UInt8 := vs.flatMap (Iovec.bytes [])

theorem contents_append (vs ws : List Iovec) : contents (vs ++ ws) = contents vs ++ contents ws :=
  List.flatMap_append

theorem length_contents {vs : List Iovec} (plain : ∀ v ∈ vs, v.Plain) :
    (contents vs).length = groupSize vs := by
  induction vs with
  | nil => rfl
  | cons v vs ih =>
    rw [List.forall_mem_cons] at plain
    rw [contents, List.flatMap_cons, List.length_append, plain.1.length_bytes, ← contents,
      ih plain.2]
    rfl

/-- The first entry without the bytes that have been written of it. -/
def trim (res : ℕ) : List Iovec → List Iovec
  | [] => []
  | v :: vs => ⟨v.base.advance res, v.len - res⟩ :: vs

theorem trim_zero (vs : List Iovec) : trim 0 vs = vs := by
  cases vs with
  | nil => rfl
  | cons v vs => rw [trim, v.base.advance_zero, Nat.sub_zero]

theorem length_trim (res : ℕ) (vs : List Iovec) : (trim res vs).length = vs.length := by
  cases vs <;> rfl

def Inside (res : ℕ) : List Iovec → Prop
  | [] => res = 0
  | v :: _ => res < v.len

theorem Inside.plain_trim {res : ℕ} {vs : List Iovec} (plain : ∀ v ∈ vs, v.Plain) :
    ∀ v ∈ trim res vs, v.Plain := by
  cases vs with
  | nil => exact plain
  | cons v vs =>
    rw [List.forall_mem_cons] at plain
    refine List.forall_mem_cons.2 ⟨?_, plain.2⟩
    obtain ⟨content, base, le⟩ := plain.1
    refine ⟨content.drop res, by simp only [base, IovBase.advance], ?_⟩
    rw [List.length_drop]
    exact Nat.sub_le_sub_right le res

theorem Inside.positive_trim {res : ℕ} {vs : List Iovec} (h : Inside res vs)
    (positive : ∀ v ∈ vs, 0 < v.len) : ∀ v ∈ trim res vs, 0 < v.len := by
  cases vs with
  | nil => exact positive
  | cons v vs =>
    rw [List.forall_mem_cons] at positive
    exact List.forall_mem_cons.2 ⟨Nat.sub_pos_of_lt h, positive.2⟩

theorem Inside.contents_trim {res : ℕ} {vs : List Iovec} (h : Inside res vs)
    (plain : ∀ v ∈ vs, v.Plain) : contents (trim res vs) = (contents vs).drop res := by
  cases vs with
  | nil => exact (List.drop_nil).symm
  | cons v vs =>
    rw [List.forall_mem_cons] at plain
    have len := plain.1.length_bytes []
    obtain ⟨content, base, le⟩ := plain.1
    have first : Iovec.bytes [] ⟨v.base.advance res, v.len - res⟩ = (v.bytes []).drop res := by
      simp only [Iovec.bytes, base, IovBase.advance, List.drop_take]
    rw [trim, contents, List.flatMap_cons, first, contents, List.flatMap_cons,
      List.drop_append_of_le_length (by rw [len]; exact h.le)]

namespace Outgoing

/-- The entries that the loop of `transmit` removes are those that have been written as a whole. -/
theorem retire_spec (before g after : List Iovec) {n : ℕ} (le : n ≤ groupSize g) :
    ∃ done left res, g = done ++ left ∧ n = groupSize done + res ∧ Inside res left ∧
      retire (before ++ g ++ after) g.length before.length n =
        some (left.length, before.length + done.length, res) := by
  induction g generalizing before n with
  | nil =>
    obtain rfl : n = 0 := Nat.le_zero.1 le
    exact ⟨[], [], 0, rfl, rfl, rfl, rfl⟩
  | cons v g ih =>
    have entry : (before ++ v :: g ++ after)[before.length]? = some v := by simp
    rw [List.length_cons, retire, entry, Option.bind_some]
    by_cases whole : v.len ≤ n
    · rw [if_pos whole]
      have rest : n - v.len ≤ groupSize g := by
        simp only [groupSize, List.map_cons, List.sum_cons] at le ⊢
        omega
      obtain ⟨done, left, res, split, count, inside, ran⟩ := ih (before ++ [v]) rest
      refine ⟨v :: done, left, res, by rw [split]; rfl, ?_, inside, ?_⟩
      · simp only [groupSize, List.map_cons, List.sum_cons] at count ⊢
        omega
      · simp only [List.length_append, List.length_singleton, List.append_assoc,
          List.singleton_append] at ran
        rw [List.append_assoc, List.length_cons]
        simpa only [List.cons_append, Nat.add_assoc, Nat.add_comm 1] using ran
    · rw [if_neg whole]
      exact ⟨[], v :: g, n, rfl, (Nat.zero_add n).symm, Nat.lt_of_not_le whole, rfl⟩

theorem written_spec (c : Outgoing) {before g after : List Iovec}
    (iov : c.iov = before ++ g ++ after) {n : ℕ} (le : n ≤ groupSize g) :
    ∃ done left res, g = done ++ left ∧ n = groupSize done + res ∧ Inside res left ∧
      c.written ⟨⟨c.block, before.length⟩, g.length⟩ n =
        some { c with
          msglist := c.msglist.set c.msgcurr ⟨⟨c.block, before.length + done.length⟩, left.length⟩
          iov := before ++ done ++ trim res left ++ after } := by
  obtain ⟨done, left, res, rfl, count, inside, retired⟩ := retire_spec before g after le
  refine ⟨done, left, res, rfl, count, inside, ?_⟩
  rw [written, iov, retired, Option.bind_some]
  dsimp only
  by_cases part : res > 0
  · cases left with
    | nil => exact absurd inside part.ne'
    | cons v left =>
      have entry : (before ++ (done ++ v :: left) ++ after)[before.length + done.length]? = some v := by
        rw [← List.length_append]
        simp
      have place : before.length + done.length < (before ++ (done ++ v :: left) ++ after).length := by
        simp
      rw [if_pos part, entry, Option.map_some, writeIov, if_pos ⟨rfl, place⟩]
      congr 2
      dsimp only
      rw [← List.length_append, trim, ← List.append_assoc, List.append_assoc (before ++ done),
        List.set_append_right _ _ (Nat.le_refl _), Nat.sub_self]
      simp
  · obtain rfl : res = 0 := by omega
    rw [if_neg part, trim_zero]
    congr 2
    simp

end Outgoing

/-! ## The messages that are left -/

/-- The messages of a TCP connection from the current one on stand over the entries `left`. -/
structure Sending (c : Outgoing) (left : List (List Iovec)) : Prop where
  tcp : c.udp = false
  laid : ∃ before after, c.iov = before ++ left.flatten ++ after ∧
    Laid c.block before.length (c.msglist.drop c.msgcurr) left
  short : ∀ g ∈ left, g.length ≤ iovMax
  plain : ∀ v ∈ left.flatten, v.Plain

namespace Sending

variable {c : Outgoing} {left : List (List Iovec)} {g : List Iovec} {gs : List (List Iovec)}

theorem current (h : Sending c (g :: gs)) : ∃ before after,
    c.iov = before ++ g ++ (gs.flatten ++ after) ∧
      c.msglist[c.msgcurr]? = some ⟨⟨c.block, before.length⟩, g.length⟩ ∧
      Laid c.block (before.length + g.length) (c.msglist.drop (c.msgcurr + 1)) gs := by
  obtain ⟨before, after, iov, laid⟩ := h.laid
  refine ⟨before, after, by rw [iov, List.flatten_cons]; simp, ?_⟩
  rw [← List.head?_drop, ← List.tail_drop]
  cases rest : c.msglist.drop c.msgcurr with
  | nil =>
    rw [rest] at laid
    exact laid.elim
  | cons m ms =>
    rw [rest] at laid
    exact ⟨congrArg some laid.1, laid.2⟩

theorem ended (h : Sending c []) : c.msglist[c.msgcurr]? = none := by
  obtain ⟨before, after, -, laid⟩ := h.laid
  rw [← List.head?_drop]
  cases rest : c.msglist.drop c.msgcurr with
  | nil => rfl
  | cons m ms =>
    rw [rest] at laid
    exact laid.elim

theorem tail (h : Sending c ([] :: gs)) : Sending { c with msgcurr := c.msgcurr + 1 } gs := by
  obtain ⟨before, after, iov, -, laid⟩ := h.current
  refine ⟨h.tcp, ⟨before, after, ?_, laid⟩, fun g mem => h.short g (List.mem_cons_of_mem _ mem),
    h.plain⟩
  rw [iov]
  simp

theorem nextMsg (h : Sending c left) :
    ∃ left', Sending c.nextMsg left' ∧ left'.flatten = left.flatten ∧
      (Begun left → ∀ g ∈ left', g ≠ []) := by
  rw [Outgoing.nextMsg]
  match left, h with
  | [], h =>
    rw [h.ended]
    exact ⟨[], h, rfl, fun _ g mem => absurd mem List.not_mem_nil⟩
  | [] :: gs, h =>
    obtain ⟨before, after, -, message, -⟩ := h.current
    rw [message]
    exact ⟨gs, h.tail, rfl, id⟩
  | (v :: g) :: gs, h =>
    obtain ⟨before, after, -, message, -⟩ := h.current
    rw [message]
    exact ⟨_, h, rfl, fun begun => List.forall_mem_cons.2 ⟨List.cons_ne_nil _ _, begun⟩⟩

theorem plain_head (h : Sending c (g :: gs)) : ∀ v ∈ g, v.Plain := fun v mem =>
  h.plain v (by simp [mem])

theorem written (h : Sending c (g :: gs)) {n : ℕ} (le : n ≤ groupSize g) {m : Msghdr}
    (message : c.msglist[c.msgcurr]? = some m) :
    ∃ c' g', c.written m n = some c' ∧ Sending c' (g' :: gs) ∧
      contents g' = (contents g).drop n ∧ ((∀ v ∈ g, 0 < v.len) → ∀ v ∈ g', 0 < v.len) := by
  obtain ⟨before, after, iov, message', laid⟩ := h.current
  obtain rfl := Option.some.inj (message.symm.trans message')
  obtain ⟨done, rest, res, rfl, count, inside, written⟩ := c.written_spec iov le
  have plain := List.forall_mem_append.1 h.plain_head
  have size : (contents done).length = groupSize done := length_contents plain.1
  have inside_list : c.msgcurr < c.msglist.length := (List.getElem?_eq_some_iff.1 message).1
  refine ⟨_, trim res rest, written, ⟨h.tcp, ⟨before ++ done, after, ?_, ?_⟩, ?_, ?_⟩, ?_, ?_⟩
  · simp
  · dsimp only
    rw [List.drop_set, if_neg (Nat.lt_irrefl _), Nat.sub_self,
      List.drop_eq_getElem_cons inside_list, List.set_cons_zero, List.length_append]
    refine ⟨by rw [length_trim], ?_⟩
    rw [length_trim, Nat.add_assoc, ← List.length_append]
    exact laid
  · rw [List.forall_mem_cons, length_trim]
    have short := h.short
    rw [List.forall_mem_cons, List.length_append] at short
    exact ⟨by omega, short.2⟩
  · rw [List.flatten_cons, List.forall_mem_append]
    exact ⟨Inside.plain_trim plain.2, fun v mem => h.plain v (by simp [mem])⟩
  · rw [inside.contents_trim plain.2, contents_append, count, ← size, List.drop_append]
    simp
  · exact fun positive => inside.positive_trim fun v mem => positive v (by simp [mem])

theorem gather (h : Sending c (g :: gs)) {m : Msghdr} (message : c.msglist[c.msgcurr]? = some m) :
    c.gather m = some (contents g) := by
  obtain ⟨before, after, iov, message', -⟩ := h.current
  obtain rfl := Option.some.inj (message.symm.trans message')
  have entries : (c.iov.drop before.length).take g.length = g := by
    rw [iov]
    simp
  have bytes : ∀ v ∈ g, v.bytes c.hdrbuf = v.bytes [] := fun v mem =>
    (h.plain_head v mem).bytes_eq c.hdrbuf
  rw [Outgoing.gather]
  dsimp only
  rw [entries, if_pos ⟨rfl, rfl, fun v mem => (h.plain_head v mem).length_bytes _⟩, contents,
    List.flatMap_congr bytes]

end Sending

/-- Every message that is left has bytes, the first perhaps none. -/
structure Solid (left : List (List Iovec)) : Prop where
  positive : ∀ v ∈ left.flatten, 0 < v.len
  begun : Begun left

/-- The socket is not broken and the event of a blocked one is updated. -/
def Socket.Alive : Socket → Prop
  | .takes _ => True
  | .blocked updated => updated = true
  | .broken => False

instance : DecidablePred Socket.Alive := fun socket => by
  cases socket <;> unfold Socket.Alive <;> infer_instance

/-- A call of `transmit`: `content` has gone from the front of what was left. -/
structure Transmitted (left : List (List Iovec)) (socket : Socket) (c' : Outgoing)
    (result : TransmitResult) (content : List UInt8) (left' : List (List Iovec)) : Prop where
  sending : Sending c' left'
  content_eq : contents left.flatten = content ++ contents left'.flatten
  complete : result = .complete → left'.flatten = []
  solid : Solid left → Solid left' ∧ (socket.Alive → result ≠ .hardError) ∧
    (∀ room, socket = .takes room → result = .complete ∨ content ≠ [])

namespace Sending

variable {c : Outgoing} {left : List (List Iovec)} {g : List Iovec} {gs : List (List Iovec)}

/-- The messages from the current one on, when a finished one has been skipped. -/
structure Skipped (left left' : List (List Iovec)) : Prop where
  flatten_eq : left'.flatten = left.flatten
  begun : Begun left → ∀ g ∈ left', g ≠ []

theorem Skipped.solid {left' : List (List Iovec)} (h : Skipped left left') (solid : Solid left) :
    Solid left' :=
  ⟨h.flatten_eq ▸ solid.positive, fun g mem => h.begun solid.begun g (List.mem_of_mem_tail mem)⟩

theorem idle {left' : List (List Iovec)} (h : Sending c left') (skipped : Skipped left left')
    {socket : Socket} {result : TransmitResult} (complete : result ≠ .complete)
    (solid : Solid left → (socket.Alive → result ≠ .hardError) ∧ ∀ room, socket ≠ .takes room) :
    Transmitted left socket c result [] left' :=
  ⟨h, by rw [skipped.flatten_eq]; rfl, fun ended => absurd ended complete, fun h' =>
    ⟨skipped.solid h', (solid h').1, fun room takes => absurd takes ((solid h').2 room)⟩⟩

theorem sendMsg (h : Sending c (g :: gs)) (skipped : Skipped left (g :: gs)) (socket : Socket)
    {m : Msghdr} (message : c.msglist[c.msgcurr]? = some m) :
    ∃ c' result content left', c.sendMsg socket m = some (c', result, content) ∧
      Transmitted left socket c' result content left' := by
  obtain ⟨before, after, -, message', -⟩ := h.current
  have iovlen : m.msgIovlen = g.length := by
    rw [Option.some.inj (message.symm.trans message')]
  have short : ¬iovMax < g.length := by
    have := h.short g List.mem_cons_self
    omega
  have size := length_contents h.plain_head
  have positive : Solid left → 0 < groupSize g := by
    intro solid
    obtain ⟨v, g', rfl⟩ := List.exists_cons_of_ne_nil (skipped.begun solid.begun g List.mem_cons_self)
    have := (skipped.solid solid).positive v (by simp)
    simp only [groupSize, List.map_cons, List.sum_cons]
    omega
  rw [Outgoing.sendMsg, h.gather message, Option.bind_some, iovlen, size, h.tcp]
  cases socket with
  | broken =>
    exact ⟨c, _, _, _, rfl, h.idle skipped (by simp) fun _ => ⟨False.elim, (by simp)⟩⟩
  | blocked updated =>
    rw [sendmsg, if_neg short]
    by_cases empty : groupSize g = 0
    · rw [if_pos empty]
      exact ⟨c, _, _, _, rfl, h.idle skipped (by simp) fun solid => absurd empty (positive solid).ne'⟩
    · rw [if_neg empty]
      refine ⟨c, _, _, _, rfl, h.idle skipped ?_ fun _ => ⟨?_, (by simp)⟩⟩
      · cases updated <;> simp
      · rintro rfl
        simp
  | takes room =>
    rw [sendmsg, if_neg short, if_neg Bool.false_ne_true]
    cases count : min (room + 1) (groupSize g) with
    | zero =>
      have empty : groupSize g = 0 := by omega
      exact ⟨c, _, _, _, rfl, h.idle skipped (by simp) fun solid => absurd empty (positive solid).ne'⟩
    | succ n =>
      obtain ⟨c', g', written, sending, content, kept⟩ := h.written (n := n + 1) (by omega) message
      dsimp only
      rw [written, Option.map_some]
      refine ⟨c', _, _, g' :: gs, rfl, sending, ?_, (by simp), fun solid => ⟨⟨?_, ?_⟩, (by simp), ?_⟩⟩
      · rw [← skipped.flatten_eq, List.flatten_cons, contents_append, List.flatten_cons,
          contents_append, content, ← List.append_assoc, List.take_append_drop]
      · have := (skipped.solid solid).positive
        rw [List.flatten_cons, List.forall_mem_append] at this ⊢
        exact ⟨kept this.1, this.2⟩
      · exact (skipped.solid solid).begun
      · intro room _
        refine .inr fun empty => ?_
        have length := congrArg List.length empty
        rw [List.length_take, size, List.length_nil] at length
        omega

theorem transmit (h : Sending c left) (socket : Socket) :
    ∃ c' result content left', c.transmit socket = some (c', result, content) ∧
      Transmitted left socket c' result content left' := by
  obtain ⟨left₁, next, flatten, begun⟩ := h.nextMsg
  have skipped : Skipped left left₁ := ⟨flatten, begun⟩
  rw [Outgoing.transmit]
  cases left₁ with
  | nil =>
    rw [next.ended]
    refine ⟨_, _, _, [], rfl, next, ?_, fun _ => rfl, fun solid =>
      ⟨skipped.solid solid, nofun, fun _ _ => .inl rfl⟩⟩
    rw [← flatten]
    rfl
  | cons g gs =>
    obtain ⟨before, after, -, message, -⟩ := next.current
    rw [message]
    exact next.sendMsg skipped socket message

end Sending

/-! ## Whole responses -/

namespace Transfer

variable {t t' : Transfer} {total : List UInt8} {left : List (List Iovec)} {socket : Socket}
  {sockets : List Socket}

/-- What has been sent and what is left make up the response. -/
structure Inv (total : List UInt8) (t : Transfer) (left : List (List Iovec)) : Prop where
  sending : Sending t.conn left
  content : t.sent.flatten ++ contents left.flatten = total
  complete : t.result = some .complete → left.flatten = []

theorem Inv.step (h : Inv total t left) (running : t.Running) (socket : Socket) :
    ∃ t' left', Step t socket t' ∧ Inv total t' left' ∧
      (Solid left → Solid left' ∧ (socket.Alive → t'.result ≠ some .hardError) ∧
        (contents left'.flatten).length ≤ (contents left.flatten).length ∧
        ∀ room, socket = .takes room → t'.result = some .complete ∨
          (contents left'.flatten).length < (contents left.flatten).length) := by
  obtain ⟨c', result, content, left', moved, transmitted⟩ := h.sending.transmit socket
  have mwrite : t.conn.mwrite socket = some (c', result, content) := by
    rw [Outgoing.mwrite, h.sending.tcp, Bool.false_and, if_neg Bool.false_ne_true, moved]
  have length := congrArg List.length transmitted.content_eq
  rw [List.length_append] at length
  refine ⟨⟨c', if content = [] then t.sent else t.sent ++ [content], some result⟩, left',
    ⟨running, _, _, _, mwrite, rfl⟩, ⟨transmitted.sending, ?_, ?_⟩, fun solid => ?_⟩
  · rw [← h.content, transmitted.content_eq]
    dsimp only
    split
    · rename_i empty
      rw [empty, List.nil_append]
    · simp
  · exact fun complete => transmitted.complete (Option.some.inj complete)
  · obtain ⟨solid', alive, takes⟩ := transmitted.solid solid
    refine ⟨solid', fun h => by simpa using alive h, by omega, fun room eq => ?_⟩
    obtain complete | nonempty := takes room eq
    · exact .inl (congrArg some complete)
    · have := List.length_pos_iff.2 nonempty
      exact .inr (by omega)

theorem Step.unique {t₁ t₂ : Transfer} (h : Step t socket t₁) (h' : Step t socket t₂) : t₁ = t₂ := by
  obtain ⟨-, c, result, content, moved, rfl⟩ := h
  obtain ⟨-, c', result', content', moved', rfl⟩ := h'
  obtain ⟨rfl, rfl, rfl⟩ : c = c' ∧ result = result' ∧ content = content' := by
    simpa using moved.symm.trans moved'
  rfl

theorem Inv.run (h : Inv total t left) (run : Run Step t sockets t') : ∃ left', Inv total t' left' := by
  refine run.invariant (I := fun t => ∃ left, Inv total t left) ?_ ⟨left, h⟩
  rintro t socket t' ⟨left, h⟩ step
  obtain ⟨t₁, left', step', h', -⟩ := h.step step.1 socket
  rw [step.unique step']
  exact ⟨left', h'⟩

/-- When every call in which the socket takes something brings the transfer nearer to its end, it
becomes complete as soon as there have been enough of these. -/
theorem completes_of {P : ℕ → Transfer → Prop}
    (moves : ∀ m t socket, P m t → t.Running → socket.Alive → ∃ t' m', Step t socket t' ∧ P m' t' ∧
      m' ≤ m ∧ t'.result ≠ some .hardError ∧
      ∀ room, socket = .takes room → t'.result = some .complete ∨ m' < m)
    {m : ℕ} (h : P m t) (running : t.Running) (alive : ∀ socket ∈ sockets, socket.Alive)
    (enough : m < sockets.countP (· matches .takes _)) :
    ∃ n t', Run Step t (sockets.take n) t' ∧ t'.result = some .complete := by
  induction sockets generalizing t m with
  | nil => exact absurd enough (Nat.not_lt_zero _)
  | cons socket sockets ih =>
    rw [List.forall_mem_cons] at alive
    obtain ⟨t₁, m₁, step, h₁, le, sound, takes⟩ := moves m t socket h running alive.1
    by_cases complete : t₁.result = some .complete
    · exact ⟨1, t₁, .one step, complete⟩
    · have enough₁ : m₁ < sockets.countP (· matches .takes _) := by
        cases socket with
        | broken => exact alive.1.elim
        | blocked updated =>
          rw [List.countP_cons_of_neg (by simp)] at enough
          omega
        | takes room =>
          rw [List.countP_cons_of_pos (by simp)] at enough
          have := (takes room rfl).resolve_left complete
          omega
      obtain ⟨n, t', run, ended⟩ := ih h₁ ⟨complete, sound⟩ alive.2 enough₁
      exact ⟨n + 1, t', .cons step run, ended⟩

theorem Inv.completes (h : Inv total t left) (solid : Solid left) (running : t.Running)
    (alive : ∀ socket ∈ sockets, socket.Alive)
    (enough : (contents left.flatten).length < sockets.countP (· matches .takes _)) :
    ∃ n t', Run Step t (sockets.take n) t' ∧ t'.result = some .complete := by
  refine completes_of (P := fun m t => ∃ left, Inv total t left ∧ Solid left ∧
    m = (contents left.flatten).length) ?_ ⟨left, h, solid, rfl⟩ running alive enough
  rintro m t socket ⟨left, h, solid, rfl⟩ running alive
  obtain ⟨t', left', step, h', moved⟩ := h.step running socket
  obtain ⟨solid', sound, le, takes⟩ := moved solid
  exact ⟨t', _, step, ⟨left', h', solid', rfl⟩, le, sound alive, takes⟩

end Transfer

theorem Formed.sending {c : Outgoing} {groups : List (List Iovec)} (h : Formed c groups)
    (tcp : c.udp = false) (plain : ∀ v ∈ groups.flatten, v.Plain) : Sending c groups := by
  obtain ⟨after, stored⟩ := h.building.stored
  refine ⟨tcp, ⟨[], after, by rw [← stored]; rfl, ?_⟩, fun g mem => (h.limits g mem).short, plain⟩
  rw [h.building.first]
  exact h.building.laid

def newOutgoing (udp : Bool) (requestId : ℕ) : Outgoing where
  udp := udp
  requestId := requestId
  iov := List.replicate 400 ⟨.null, 0⟩
  block := 0
  iovused := 0
  msglist := []
  msgsize := 10
  msgcurr := 0
  msgbytes := 0
  hdrbuf := []
  hdrsize := 0
  overrun := false

theorem ready_newOutgoing (udp : Bool) (requestId : ℕ) : (newOutgoing udp requestId).Ready := by
  refine ⟨?_, (by decide : 0 < 10), rfl⟩
  rw [newOutgoing, List.length_replicate]
  decide

end LogMemcached
