import LogMemcached.Transmit

/-!
# The datagrams of a response

On a UDP connection the first entry of each message is left for its header.  `build_udp_headers`
fills these entries in through the messages' pointers before each call of `transmit` while the first
message is the current one, also when that has been sent already and its pointer has moved on to the
entry of the next message's header.
-/

namespace LogMemcached

open Transition

/-! ## Places in the list -/

/-- Where the entries of message `i` start. -/
def offset (groups : List (List Iovec)) (i : ℕ) : ℕ := (groups.take i).flatten.length

section

variable {groups : List (List Iovec)} {g : List Iovec} {i j : ℕ}

theorem offset_succ (mem : groups[i]? = some g) : offset groups (i + 1) = offset groups i + g.length := by
  rw [offset, List.take_add_one, mem]
  simp [offset]

theorem offset_length (groups : List (List Iovec)) :
    offset groups groups.length = groups.flatten.length := by
  rw [offset, List.take_length]

theorem offset_mono (groups : List (List Iovec)) (le : i ≤ j) : offset groups i ≤ offset groups j := by
  obtain ⟨d, rfl⟩ := Nat.exists_eq_add_of_le le
  rw [offset, offset, List.take_add, List.flatten_append, List.length_append]
  exact Nat.le_add_right _ _

theorem offset_outside (mem : groups[i]? = some g) (j : ℕ) :
    offset groups j ≤ offset groups i ∨ offset groups i + g.length ≤ offset groups j := by
  rcases Nat.lt_or_ge i j with lt | le
  · rw [← offset_succ mem]
    exact .inr (offset_mono groups lt)
  · exact .inl (offset_mono groups le)

theorem offset_lt (begun : ∀ g ∈ groups, g ≠ []) (lt : i < j) (bound : i < groups.length) :
    offset groups i < offset groups j := by
  have mem : groups[i]? = some groups[i] := List.getElem?_eq_getElem bound
  have positive : 0 < groups[i].length :=
    List.length_pos_iff.2 (begun _ (List.getElem_mem bound))
  have := offset_mono groups (Nat.succ_le_of_lt lt)
  rw [Nat.succ_eq_add_one, offset_succ mem] at this
  omega

theorem flatten_split (mem : groups[i]? = some g) :
    groups.flatten = (groups.take i).flatten ++ (g ++ (groups.drop (i + 1)).flatten) := by
  obtain ⟨bound, rfl⟩ := List.getElem?_eq_some_iff.1 mem
  rw [← List.flatten_cons, ← List.flatten_append, ← List.drop_eq_getElem_cons bound,
    List.take_append_drop]

theorem isPrefix_set {vs iov : List Iovec} {p q : ℕ} {v : Iovec} (h : vs <+: iov.drop p)
    (apart : q < p ∨ p + vs.length ≤ q) : vs <+: (iov.set q v).drop p := by
  rw [List.drop_set]
  split
  · exact h
  · obtain ⟨rest, eq⟩ := h
    rw [← eq, List.set_append_right _ _ (by omega)]
    exact List.prefix_append _ _

end

theorem Laid.message {block index i : ℕ} {ms : List Msghdr} {gs : List (List Iovec)} {g : List Iovec}
    (h : Laid block index ms gs) (mem : gs[i]? = some g) :
    ms[i]? = some ⟨⟨block, index + offset gs i⟩, g.length⟩ := by
  induction ms generalizing index gs i with
  | nil =>
    cases gs with
    | nil => simp at mem
    | cons g' gs => exact h.elim
  | cons m ms ih =>
    cases gs with
    | nil => exact h.elim
    | cons g' gs =>
      obtain ⟨rfl, rest⟩ := h
      cases i with
      | zero =>
        obtain rfl := Option.some.inj mem
        rfl
      | succ i =>
        have := ih rest (by simpa using mem)
        simpa [offset, Nat.add_assoc] using this

/-! ## The datagrams that are left -/

/-- The messages of a UDP connection after `k` of them have been sent.  When the last of these is
still the current one, its pointer stands on the first entry of the next. -/
structure Afloat (c : Outgoing) (groups : List (List Iovec)) (k : ℕ) : Prop where
  udp : c.udp = true
  begun : ∀ g ∈ groups, g ≠ []
  count : c.msglist.length = groups.length
  bound : k ≤ groups.length
  ahead : ∀ i g, k ≤ i → groups[i]? = some g →
    c.msglist[i]? = some ⟨⟨c.block, offset groups i⟩, g.length⟩
  stored : ∀ i g, groups[i]? = some g → g.tail <+: c.iov.drop (offset groups i + 1)
  slotted : groups.flatten.length ≤ c.iov.length
  current : c.msgcurr = k ∨
    c.msgcurr + 1 = k ∧ c.msglist[c.msgcurr]? = some ⟨⟨c.block, offset groups k⟩, 0⟩
  headers : c.hdrbuf.length = c.hdrsize * udpHeaderSize

def headerEntry (i : ℕ) : Iovec := ⟨.hdr (udpHeaderSize * i), udpHeaderSize⟩

/-- The headers of the first `j` messages are in `hdrbuf`, and those from `k` on are attached. -/
structure HeadedTo (c : Outgoing) (groups : List (List Iovec)) (k j : ℕ) : Prop where
  slots : ∀ i, k ≤ i → i < j → c.iov[offset groups i]? = some (headerEntry i)
  content : ∀ i < j, (c.hdrbuf.drop (udpHeaderSize * i)).take udpHeaderSize =
    udpHeader c.requestId i groups.length

theorem length_udpHeader (requestId i n : ℕ) : (udpHeader requestId i n).length = udpHeaderSize := rfl

theorem splice_self {l x r : List UInt8} {p : ℕ} (le : p ≤ l.length) :
    ((l.take p ++ x ++ r).drop p).take x.length = x := by
  have length : (l.take p).length = p := by rw [List.length_take]; omega
  rw [List.append_assoc, List.drop_append_of_le_length length.ge, List.drop_of_length_le length.le,
    List.nil_append, List.take_left]

theorem splice_before {l x : List UInt8} {a n p : ℕ} (before : a + n ≤ p) (le : p ≤ l.length) :
    ((l.take p ++ x).drop a).take n = (l.drop a).take n := by
  have length : (l.take p).length = p := by rw [List.length_take]; omega
  rw [List.drop_append_of_le_length (by omega), List.drop_take,
    List.take_append_of_le_length (by simp; omega), List.take_take, Nat.min_eq_left (by omega)]

theorem Outgoing.writeIov_block (c : Outgoing) (p : ℕ) (v : Iovec) :
    ∃ overrun, c.writeIov ⟨c.block, p⟩ v = { c with iov := c.iov.set p v, overrun } := by
  rw [Outgoing.writeIov]
  split
  · exact ⟨c.overrun, rfl⟩
  · rename_i out
    have le : c.iov.length ≤ p := by simpa using out
    exact ⟨true, by rw [List.set_eq_of_length_le le]⟩

namespace Afloat

variable {c : Outgoing} {groups : List (List Iovec)} {k : ℕ}

theorem of_responded {c₀ : Outgoing} {bufs : List (List UInt8)} (h : Responded c₀ bufs c groups)
    (udp : c₀.udp = true) (headers : c₀.hdrbuf.length = c₀.hdrsize * udpHeaderSize) :
    Afloat c groups 0 where
  udp := h.same.udp.trans udp
  begun g mem := by
    rintro rfl
    cases (h.formed.limits [] mem).slot (h.same.udp.trans udp)
  count := h.formed.building.laid.length_eq
  bound := Nat.zero_le _
  ahead i g _ mem := by
    rw [h.formed.building.laid.message mem, Nat.zero_add]
  stored i g mem := by
    have slot := (h.formed.limits g (List.mem_of_getElem? mem)).slot (h.same.udp.trans udp)
    obtain ⟨after, stored⟩ := h.formed.building.stored
    obtain ⟨v, tail, rfl⟩ : ∃ v tail, g = v :: tail := by
      cases g with
      | nil => cases slot
      | cons v tail => exact ⟨v, tail, rfl⟩
    rw [← stored, flatten_split mem, offset, ← List.drop_drop]
    simp
  slotted := by
    have := h.formed.building.stored.length_le
    exact this
  current := .inl h.formed.building.first
  headers := by
    rw [h.same.hdrbuf, h.same.hdrsize]
    exact headers

theorem offset_lt_length (h : Afloat c groups k) {i : ℕ} (lt : i < groups.length) :
    offset groups i < c.iov.length := by
  have := offset_lt h.begun lt lt
  rw [offset_length] at this
  exact this.trans_le h.slotted

theorem attach (h : Afloat c groups k) (q : ℕ) (v : Iovec) (overrun : Bool) {hdrbuf : List UInt8}
    (length : hdrbuf.length = c.hdrbuf.length) :
    Afloat { c with iov := c.iov.set (offset groups q) v, overrun, hdrbuf } groups k where
  udp := h.udp
  begun := h.begun
  count := h.count
  bound := h.bound
  ahead := h.ahead
  stored i g mem := by
    refine isPrefix_set (h.stored i g mem) ?_
    have positive := List.length_pos_iff.2 (h.begun g (List.mem_of_getElem? mem))
    rw [List.length_tail]
    rcases offset_outside mem q with le | le
    · exact .inl (by omega)
    · exact .inr (by omega)
  slotted := by
    rw [List.length_set]
    exact h.slotted
  current := h.current
  headers := length.trans h.headers

theorem pointer (h : Afloat c groups k) (first : c.msgcurr = 0) {j : ℕ} (lt : j < groups.length) :
    ∃ q iovlen, c.msglist[j]? = some ⟨⟨c.block, offset groups q⟩, iovlen⟩ ∧ (k ≤ j → q = j) := by
  rcases Nat.lt_or_ge j k with sent | le
  · -- only the first message can have been sent while it is the current one
    rcases h.current with none_sent | ⟨one, message⟩
    · omega
    · obtain rfl : j = c.msgcurr := by omega
      exact ⟨k, 0, message, fun le => by omega⟩
  · exact ⟨j, _, h.ahead j _ le (List.getElem?_eq_getElem lt), fun _ => rfl⟩

theorem attachHeader (h : Afloat c groups k) (first : c.msgcurr = 0)
    (room : groups.length ≤ c.hdrsize) {j : ℕ} (lt : j < groups.length)
    (headed : HeadedTo c groups k j) :
    ∃ iov overrun hdrbuf, c.attachHeader j = { c with iov, overrun, hdrbuf } ∧
      Afloat (c.attachHeader j) groups k ∧ HeadedTo (c.attachHeader j) groups k (j + 1) := by
  obtain ⟨q, iovlen, message, place⟩ := h.pointer first lt
  obtain ⟨overrun, write⟩ := c.writeIov_block (offset groups q) (headerEntry j)
  have inside : udpHeaderSize * j + udpHeaderSize ≤ c.hdrbuf.length := by
    rw [h.headers]
    simp only [udpHeaderSize]
    omega
  have attached : c.attachHeader j =
      { c with
        iov := c.iov.set (offset groups q) (headerEntry j)
        overrun
        hdrbuf := c.hdrbuf.take (udpHeaderSize * j) ++ udpHeader c.requestId j groups.length ++
          c.hdrbuf.drop (udpHeaderSize * j + udpHeaderSize) } := by
    rw [Outgoing.attachHeader, message]
    dsimp only
    rw [h.count]
    change ({ c.writeIov ⟨c.block, offset groups q⟩ (headerEntry j) with hdrbuf := _ } : Outgoing) = _
    rw [write]
  rw [attached]
  refine ⟨_, _, _, rfl, h.attach q _ _ ?_, ?_, ?_⟩
  · simp only [List.length_append, List.length_take, List.length_drop, length_udpHeader]
    omega
  · intro i le below
    dsimp only
    rw [List.getElem?_set]
    by_cases last : i = j
    · subst last
      rw [place le, if_pos rfl, if_pos (h.offset_lt_length lt)]
    · have apart : offset groups i < offset groups j := offset_lt h.begun (by omega) (by omega)
      rw [place (by omega), if_neg (by omega)]
      exact headed.slots i le (by omega)
  · intro i below
    dsimp only
    by_cases last : i = j
    · subst last
      have self := @splice_self c.hdrbuf (udpHeader c.requestId i groups.length)
        (c.hdrbuf.drop (udpHeaderSize * i + udpHeaderSize)) (udpHeaderSize * i) (by omega)
      rw [length_udpHeader] at self
      exact self
    · have earlier : udpHeaderSize * i + udpHeaderSize ≤ udpHeaderSize * j := by
        simp only [udpHeaderSize]
        omega
      rw [List.append_assoc, splice_before earlier (by omega)]
      exact headed.content i (by omega)

theorem growHdrbuf (h : Afloat c groups k) :
    ∃ hdrbuf hdrsize, c.growHdrbuf = { c with hdrbuf, hdrsize } ∧ groups.length ≤ hdrsize ∧
      hdrbuf.length = hdrsize * udpHeaderSize := by
  rw [Outgoing.growHdrbuf]
  have headers := h.headers
  have count := h.count
  by_cases grow : c.msglist.length > c.hdrsize
  · rw [if_pos grow]
    refine ⟨_, _, rfl, by omega, ?_⟩
    rw [List.length_append, List.length_replicate]
    simp only [udpHeaderSize] at headers ⊢
    omega
  · rw [if_neg grow]
    exact ⟨_, _, rfl, by omega, headers⟩

/-- By induction on the messages: a pass of `build_udp_headers` attaches the headers of all the
messages that have not been sent. -/
theorem buildUdpHeaders (h : Afloat c groups k) (first : c.msgcurr = 0) :
    ∃ c', c.buildUdpHeaders = c' ∧ Afloat c' groups k ∧ HeadedTo c' groups k groups.length ∧
      c'.msgcurr = c.msgcurr ∧ c'.requestId = c.requestId := by
  obtain ⟨hdrbuf, hdrsize, grown, room, length⟩ := h.growHdrbuf
  have start : Afloat { c with hdrbuf, hdrsize } groups k :=
    ⟨h.udp, h.begun, h.count, h.bound, h.ahead, h.stored, h.slotted, h.current, length⟩
  suffices pass : ∀ j ≤ groups.length, ∃ c',
      (List.range j).foldl Outgoing.attachHeader { c with hdrbuf, hdrsize } = c' ∧
        Afloat c' groups k ∧ HeadedTo c' groups k j ∧ c'.msgcurr = c.msgcurr ∧
        c'.requestId = c.requestId ∧ c'.hdrsize = hdrsize by
    obtain ⟨c', ran, afloat, headed, curr, id, -⟩ := pass groups.length le_rfl
    exact ⟨c', by rw [Outgoing.buildUdpHeaders, grown, h.count, ran], afloat, headed, curr, id⟩
  intro j le
  induction j with
  | zero => exact ⟨_, rfl, start, ⟨nofun, nofun⟩, rfl, rfl, rfl⟩
  | succ j ih =>
    obtain ⟨c₁, ran, afloat, headed, curr, id, size⟩ := ih (by omega)
    obtain ⟨iov, overrun, hdrbuf', attached, afloat', headed'⟩ :=
      afloat.attachHeader (curr.trans first) (by omega) (by omega) headed
    refine ⟨c₁.attachHeader j, ?_, afloat', headed', ?_, ?_, ?_⟩
    · rw [List.range_succ, List.foldl_append, ran]
      rfl
    all_goals
      rw [attached]
      assumption

theorem nextMsg (h : Afloat c groups k) : c.nextMsg = { c with msgcurr := k } := by
  rw [Outgoing.nextMsg]
  rcases h.current with rfl | ⟨rfl, message⟩
  · rcases Nat.lt_or_ge c.msgcurr groups.length with lt | ge
    · have positive := List.length_pos_iff.2 (h.begun _ (List.getElem_mem lt))
      rw [h.ahead _ _ le_rfl (List.getElem?_eq_getElem lt), if_neg]
      simp only [Option.any_some, beq_iff_eq]
      omega
    · rw [List.getElem?_eq_none (h.count.trans_le ge), if_neg (by simp)]
  · rw [message]
    rfl

theorem skip (h : Afloat c groups k) : Afloat { c with msgcurr := k } groups k :=
  ⟨h.udp, h.begun, h.count, h.bound, h.ahead, h.stored, h.slotted, .inl rfl, h.headers⟩

end Afloat

structure Sendable (g : List Iovec) : Prop where
  short : g.length ≤ iovMax
  plain : ∀ v ∈ g.tail, v.Plain

def datagram (requestId n i : ℕ) (g : List Iovec) : List UInt8 :=
  udpHeader requestId i n ++ contents g.tail

theorem groupSize_append (vs ws : List Iovec) : groupSize (vs ++ ws) = groupSize vs + groupSize ws := by
  simp [groupSize]

theorem Outgoing.written_whole (c : Outgoing) {before g after : List Iovec}
    (iov : c.iov = before ++ g ++ after) :
    c.written ⟨⟨c.block, before.length⟩, g.length⟩ (groupSize g) =
      some { c with
        msglist := c.msglist.set c.msgcurr ⟨⟨c.block, before.length + g.length⟩, 0⟩ } := by
  obtain ⟨done, left, res, rfl, count, inside, written⟩ := c.written_spec iov le_rfl
  rw [groupSize_append] at count
  cases left with
  | nil =>
    rw [written, List.append_nil, trim, List.append_nil]
    congr 2
    rw [iov, List.append_nil]
  | cons v left =>
    have : res < v.len := inside
    simp only [groupSize, List.map_cons, List.sum_cons] at count
    omega

/-- What a turn of `conn_mwrite` does on a UDP connection: it sends the next datagram, or nothing. -/
structure Sails (requestId : ℕ) (groups : List (List Iovec)) (k : ℕ) (socket : Socket)
    (c' : Outgoing) (result : TransmitResult) (content : List UInt8) (k' : ℕ) : Prop where
  afloat : Afloat c' groups k'
  headed : HeadedTo c' groups k' groups.length
  id : c'.requestId = requestId
  sent : (k' = k ∧ content = [] ∧ (result = .complete → k = groups.length) ∧
      (socket.Alive → result ≠ .hardError) ∧
      ∀ room, socket = .takes room → result = .complete) ∨
    (k' = k + 1 ∧ result = .incomplete ∧
      ∃ g, groups[k]? = some g ∧ content = datagram requestId groups.length k g)

namespace Afloat

variable {c : Outgoing} {groups : List (List Iovec)} {k : ℕ} {g : List Iovec}

theorem entries (h : Afloat c groups k) (headed : HeadedTo c groups k groups.length)
    (mem : groups[k]? = some g) :
    c.iov.drop (offset groups k) =
      (headerEntry k :: g.tail) ++ c.iov.drop (offset groups k + g.length) := by
  have lt : k < groups.length := (List.getElem?_eq_some_iff.1 mem).1
  have slot := headed.slots k le_rfl lt
  obtain ⟨bound, first⟩ := List.getElem?_eq_some_iff.1 slot
  have positive := List.length_pos_iff.2 (h.begun g (List.mem_of_getElem? mem))
  obtain ⟨rest, eq⟩ := h.stored k g mem
  have split : c.iov.drop (offset groups k + g.length) = rest := by
    have : offset groups k + g.length = offset groups k + 1 + g.tail.length := by
      rw [List.length_tail]
      omega
    rw [this, ← List.drop_drop, ← eq, List.drop_left]
  rw [List.drop_eq_getElem_cons bound, first, ← eq, split, List.cons_append]

theorem gather (h : Afloat c groups k) (headed : HeadedTo c groups k groups.length)
    (mem : groups[k]? = some g) (sendable : Sendable g) :
    c.gather ⟨⟨c.block, offset groups k⟩, g.length⟩ =
      some (datagram c.requestId groups.length k g) := by
  have lt : k < groups.length := (List.getElem?_eq_some_iff.1 mem).1
  have positive := List.length_pos_iff.2 (h.begun g (List.mem_of_getElem? mem))
  have length : g.length = (headerEntry k :: g.tail).length := by
    rw [List.length_cons, List.length_tail]
    omega
  have entries : (c.iov.drop (offset groups k)).take g.length = headerEntry k :: g.tail := by
    rw [h.entries headed mem, length, List.take_left]
  have header : (headerEntry k).bytes c.hdrbuf = udpHeader c.requestId k groups.length :=
    headed.content k lt
  have bytes : ∀ v ∈ g.tail, v.bytes c.hdrbuf = v.bytes [] := fun v mem =>
    (sendable.plain v mem).bytes_eq c.hdrbuf
  rw [Outgoing.gather]
  dsimp only
  rw [entries, if_pos, List.flatMap_cons, header, List.flatMap_congr bytes]
  · rfl
  · refine ⟨rfl, length.symm, List.forall_mem_cons.2 ⟨?_, fun v mem => ?_⟩⟩
    · rw [header]
      rfl
    · exact (sendable.plain v mem).length_bytes _

theorem length_datagram (requestId n i : ℕ) (sendable : Sendable g) :
    (datagram requestId n i g).length = udpHeaderSize + groupSize g.tail := by
  rw [datagram, List.length_append, length_contents sendable.plain]
  rfl

theorem sent (h : Afloat c groups k) (headed : HeadedTo c groups k groups.length)
    (curr : c.msgcurr = k) (mem : groups[k]? = some g) (sendable : Sendable g) :
    ∃ c', c.written ⟨⟨c.block, offset groups k⟩, g.length⟩
        (datagram c.requestId groups.length k g).length = some c' ∧
      Afloat c' groups (k + 1) ∧ HeadedTo c' groups (k + 1) groups.length ∧
      c'.requestId = c.requestId := by
  have lt : k < groups.length := (List.getElem?_eq_some_iff.1 mem).1
  have positive := List.length_pos_iff.2 (h.begun g (List.mem_of_getElem? mem))
  have length : (headerEntry k :: g.tail).length = g.length := by
    rw [List.length_cons, List.length_tail]
    omega
  have before : (c.iov.take (offset groups k)).length = offset groups k := by
    rw [List.length_take]
    have := h.offset_lt_length lt
    omega
  have iov : c.iov = c.iov.take (offset groups k) ++ (headerEntry k :: g.tail) ++
      c.iov.drop (offset groups k + g.length) := by
    rw [List.append_assoc, ← h.entries headed mem, List.take_append_drop]
  have written := c.written_whole iov
  rw [before, length] at written
  have size : groupSize (headerEntry k :: g.tail) =
      (datagram c.requestId groups.length k g).length := by
    rw [length_datagram _ _ _ sendable]
    rfl
  rw [size] at written
  refine ⟨_, written, ⟨h.udp, h.begun, ?_, lt, ?_, h.stored, h.slotted, ?_, h.headers⟩, ?_, rfl⟩
  · rw [List.length_set]
    exact h.count
  · intro i g' le mem'
    dsimp only
    rw [List.getElem?_set_ne (by omega)]
    exact h.ahead i g' (by omega) mem'
  · refine .inr ⟨by dsimp only; omega, ?_⟩
    dsimp only
    rw [List.getElem?_set_self (by rw [h.count]; omega), offset_succ mem]
  · exact ⟨fun i le below => headed.slots i (by omega) below, headed.content⟩

theorem sendMsg (h : Afloat c groups k) (headed : HeadedTo c groups k groups.length)
    (curr : c.msgcurr = k) (mem : groups[k]? = some g) (sendable : Sendable g) (socket : Socket) :
    ∃ c' result content k',
      c.sendMsg socket ⟨⟨c.block, offset groups k⟩, g.length⟩ = some (c', result, content) ∧
        Sails c.requestId groups k socket c' result content k' := by
  have nonempty : 0 < (datagram c.requestId groups.length k g).length := by
    rw [length_datagram _ _ _ sendable]
    exact Nat.lt_of_lt_of_le (by decide) (Nat.le_add_right _ _)
  have short := Nat.not_lt.2 sendable.short
  rw [Outgoing.sendMsg, h.gather headed mem sendable, Option.bind_some, h.udp]
  cases socket with
  | broken => exact ⟨c, _, _, k, rfl, h, headed, rfl, .inl ⟨rfl, rfl, (by simp), False.elim, (by simp)⟩⟩
  | blocked updated =>
    rw [sendmsg, if_neg short, if_neg nonempty.ne']
    refine ⟨c, _, _, k, rfl, h, headed, rfl, .inl ⟨rfl, rfl, ?_, ?_, (by simp)⟩⟩
    · cases updated <;> simp
    · rintro rfl
      simp
  | takes room =>
    obtain ⟨c', written, afloat, headed', id⟩ := h.sent headed curr mem sendable
    rw [sendmsg, if_neg short, if_pos rfl]
    obtain ⟨n, count⟩ := Nat.exists_eq_add_one.2 nonempty
    rw [count]
    dsimp only
    rw [← count, written, Option.map_some, List.take_length]
    exact ⟨c', _, _, k + 1, rfl, afloat, headed', id, .inr ⟨rfl, rfl, g, mem, rfl⟩⟩

theorem transmit (h : Afloat c groups k) (headed : HeadedTo c groups k groups.length)
    (sendable : ∀ g ∈ groups, Sendable g) (socket : Socket) :
    ∃ c' result content k', c.transmit socket = some (c', result, content) ∧
      Sails c.requestId groups k socket c' result content k' := by
  have next := h.skip
  have headed' : HeadedTo { c with msgcurr := k } groups k groups.length :=
    ⟨headed.slots, headed.content⟩
  rw [Outgoing.transmit, h.nextMsg]
  rcases Nat.lt_or_ge k groups.length with lt | ge
  · have mem : groups[k]? = some groups[k] := List.getElem?_eq_getElem lt
    rw [next.ahead k _ le_rfl mem]
    exact next.sendMsg headed' rfl mem (sendable _ (List.getElem_mem lt)) socket
  · have ended : groups.length = k := by
      have := h.bound
      omega
    rw [List.getElem?_eq_none (h.count.trans_le ge)]
    exact ⟨_, _, _, k, rfl, next, headed', rfl,
      .inl ⟨rfl, rfl, fun _ => ended.symm, (by simp), fun _ _ => rfl⟩⟩

theorem mwrite (h : Afloat c groups k) (headed : c.msgcurr ≠ 0 → HeadedTo c groups k groups.length)
    (sendable : ∀ g ∈ groups, Sendable g) (socket : Socket) :
    ∃ c' result content k', c.mwrite socket = some (c', result, content) ∧
      Sails c.requestId groups k socket c' result content k' := by
  rw [Outgoing.mwrite, h.udp, Bool.true_and]
  by_cases first : c.msgcurr = 0
  · obtain ⟨c₁, built, afloat, headed₁, -, id⟩ := h.buildUdpHeaders first
    rw [if_pos (by simpa using first), built, ← id]
    exact afloat.transmit headed₁ sendable socket
  · rw [if_neg (by simpa using first)]
    exact h.transmit (headed first) sendable socket

end Afloat

/-! ## Whole responses -/

namespace Transfer

variable {t t' : Transfer} {requestId k : ℕ} {groups : List (List Iovec)} {socket : Socket}
  {sockets : List Socket}

/-- The first `k` datagrams have been sent. -/
structure Floats (requestId : ℕ) (groups : List (List Iovec)) (t : Transfer) (k : ℕ) : Prop where
  afloat : Afloat t.conn groups k
  headed : t.conn.msgcurr ≠ 0 → HeadedTo t.conn groups k groups.length
  id : t.conn.requestId = requestId
  sent : t.sent = (groups.take k).mapIdx (datagram requestId groups.length)
  complete : t.result = some .complete → k = groups.length

theorem Floats.step (h : Floats requestId groups t k) (sendable : ∀ g ∈ groups, Sendable g)
    (running : t.Running) (socket : Socket) :
    ∃ t' k', Step t socket t' ∧ Floats requestId groups t' k' ∧ k ≤ k' ∧
      (socket.Alive → t'.result ≠ some .hardError) ∧
      ∀ room, socket = .takes room → t'.result = some .complete ∨ k < k' := by
  obtain ⟨c', result, content, k', moved, sails⟩ := h.afloat.mwrite h.headed sendable socket
  rw [h.id] at sails
  refine ⟨⟨c', if content = [] then t.sent else t.sent ++ [content], some result⟩, k',
    ⟨running, _, _, _, moved, rfl⟩, ?_⟩
  obtain ⟨rfl, rfl, complete, alive, takes⟩ | ⟨rfl, rfl, g, mem, rfl⟩ := sails.sent
  · refine ⟨⟨sails.afloat, fun _ => sails.headed, sails.id, h.sent, ?_⟩, le_rfl, ?_, ?_⟩
    · exact fun ended => complete (Option.some.inj ended)
    · exact fun h ended => alive h (Option.some.inj ended)
    · exact fun room eq => .inl (congrArg some (takes room eq))
  · refine ⟨⟨sails.afloat, fun _ => sails.headed, sails.id, ?_, nofun⟩, Nat.le_succ _, nofun,
      fun _ _ => .inr (Nat.lt_succ_self _)⟩
    have header : datagram requestId groups.length k g ≠ [] := List.cons_ne_nil _ _
    have bound := h.afloat.bound
    dsimp only
    rw [if_neg header, h.sent, List.take_add_one, mem, Option.toList_some, List.mapIdx_concat,
      List.length_take, Nat.min_eq_left bound]

theorem Floats.run (h : Floats requestId groups t k) (sendable : ∀ g ∈ groups, Sendable g)
    (run : Run Step t sockets t') : ∃ k', Floats requestId groups t' k' := by
  refine run.invariant (I := fun t => ∃ k, Floats requestId groups t k) ?_ ⟨k, h⟩
  rintro t socket t' ⟨k, h⟩ step
  obtain ⟨t₁, k', step', h', -⟩ := h.step sendable step.1 socket
  rw [step.unique step']
  exact ⟨k', h'⟩

theorem Floats.completes (h : Floats requestId groups t k) (sendable : ∀ g ∈ groups, Sendable g)
    (running : t.Running) (alive : ∀ socket ∈ sockets, socket.Alive)
    (enough : groups.length - k < sockets.countP (· matches .takes _)) :
    ∃ n t', Run Step t (sockets.take n) t' ∧ t'.result = some .complete := by
  refine completes_of (P := fun m t => ∃ k, Floats requestId groups t k ∧ m = groups.length - k) ?_
    ⟨k, h, rfl⟩ running alive enough
  rintro m t socket ⟨k, h, rfl⟩ running alive
  obtain ⟨t', k', step, h', le, sound, takes⟩ := h.step sendable running socket
  have bound := h'.afloat.bound
  refine ⟨t', _, step, ⟨k', h', rfl⟩, by omega, sound alive, fun room eq => ?_⟩
  rcases takes room eq with complete | lt
  · exact .inl complete
  · exact .inr (by omega)

end Transfer

def headerFields : List UInt8 → Option (ℕ × ℕ × ℕ × ℕ)
  | a :: b :: c :: d :: e :: f :: g :: h :: _ =>
      some (256 * a.toNat + b.toNat, 256 * c.toNat + d.toNat, 256 * e.toNat + f.toNat,
        256 * g.toNat + h.toNat)
  | _ => none

theorem big_endian_pair {x : ℕ} (lt : x < 65536) :
    256 * (UInt8.ofNat (x / 256)).toNat + (UInt8.ofNat (x % 256)).toNat = x := by
  rw [UInt8.toNat_ofNat', UInt8.toNat_ofNat', Nat.mod_eq_of_lt (by omega : x / 256 < 2 ^ 8),
    Nat.mod_eq_of_lt (by omega : x % 256 < 2 ^ 8)]
  omega

theorem headerFields_datagram {requestId n i : ℕ} (id : requestId < 65536) (few : n < 65536)
    (lt : i < n) (g : List Iovec) :
    headerFields (datagram requestId n i g) = some (requestId, i, n, 0) := by
  simp only [datagram, udpHeader, List.map_cons, List.map_nil, List.cons_append, List.nil_append,
    headerFields, big_endian_pair id, big_endian_pair few, big_endian_pair (lt.trans few)]
  rfl

theorem drop_datagram (requestId n i : ℕ) (g : List Iovec) :
    (datagram requestId n i g).drop udpHeaderSize = contents g.tail := by
  rw [datagram, ← length_udpHeader requestId i n, List.drop_left]

theorem payloads_datagrams (requestId n : ℕ) (groups : List (List Iovec)) :
    ((groups.mapIdx (datagram requestId n)).map (List.drop udpHeaderSize)).flatten =
      contents (payload true groups) := by
  have tails : (groups.mapIdx (datagram requestId n)).map (List.drop udpHeaderSize) =
      groups.map fun g => contents g.tail := by
    apply List.ext_getElem?
    intro i
    simp [drop_datagram, Option.map_map, Function.comp_def]
  rw [tails, contents, payload, List.flatMap_assoc, List.flatMap_def]
  rfl

theorem Responded.sendable {c c' : Outgoing} {bufs : List (List UInt8)} {groups : List (List Iovec)}
    (h : Responded c bufs c' groups) (udp : c.udp = true) : ∀ g ∈ groups, Sendable g := by
  intro g mem
  refine ⟨(h.formed.limits g mem).short, fun v mem' => h.plain v ?_⟩
  rw [udp, payload, List.mem_flatMap]
  exact ⟨g, mem, mem'⟩

theorem Responded.length_datagram_le {c c' : Outgoing} {bufs : List (List UInt8)}
    {groups : List (List Iovec)} (h : Responded c bufs c' groups) (udp : c.udp = true)
    (requestId n i : ℕ) {g : List Iovec} (mem : g ∈ groups) :
    (datagram requestId n i g).length ≤ udpMaxPayloadSize := by
  have limits := h.formed.limits g mem
  have slot := limits.slot (h.same.udp.trans udp)
  have size := limits.limited (h.same.udp.trans udp)
  rw [Afloat.length_datagram _ _ _ (h.sendable udp g mem)]
  cases g with
  | nil => cases slot
  | cons v tail =>
    obtain rfl : v = headerSlot := Option.some.inj slot
    exact size

/-- The response of a UDP connection that needs fewer than 65536 datagrams.  Every datagram that is
sent has at most 1400 bytes and starts with the request's id, its own number, the number of all
datagrams and zero; the bytes behind the headers are an initial part of the response, and all of it
when the transfer is complete, which it becomes as soon as the socket has taken enough datagrams. -/
theorem datagrams_reassemble {c : Outgoing} (ready : c.Ready) (udp : c.udp = true)
    (id : c.requestId < 65536) (headers : c.hdrbuf.length = c.hdrsize * udpHeaderSize)
    {bufs : List (List UInt8)}
    (needed : bufs.flatten.length ≤ 65535 * (udpMaxPayloadSize - udpHeaderSize)) :
    ∃ c', c.respond bufs = some c' ∧ (c'.msglist.length < 65536 →
      (∀ sockets t, Run Transfer.Step ⟨c', [], none⟩ sockets t →
        (∀ (i : ℕ) (d : List UInt8), t.sent[i]? = some d → d.length ≤ udpMaxPayloadSize ∧
          headerFields d = some (c.requestId, i, c'.msglist.length, 0)) ∧
        (t.sent.map (List.drop udpHeaderSize)).flatten <+: bufs.flatten ∧
        (t.result = some .complete → t.sent.length = c'.msglist.length ∧
          (t.sent.map (List.drop udpHeaderSize)).flatten = bufs.flatten) ∧
        (t.Running → ∀ socket, ∃ t', Transfer.Step t socket t')) ∧
      ∀ sockets : List Socket, (∀ socket ∈ sockets, socket.Alive) →
        c'.msglist.length < sockets.countP (· matches .takes _) →
        ∃ n t, Run Transfer.Step ⟨c', [], none⟩ (sockets.take n) t ∧
          t.result = some .complete) := by
  have small : ∀ buf ∈ bufs, buf.length + udpMaxPayloadSize < 2 ^ 31 := by
    intro buf mem
    have := (List.sublist_flatten_of_mem mem).length_le
    simp only [udpMaxPayloadSize, udpHeaderSize] at needed ⊢
    omega
  obtain ⟨c', groups, responded, response⟩ := ready.respond
    (fun buf mem => by have := small buf mem; omega) fun _ => small
  have afloat := Afloat.of_responded response udp headers
  have sendable := response.sendable udp
  have start : Transfer.Floats c.requestId groups ⟨c', [], none⟩ 0 :=
    ⟨afloat, fun later => absurd response.formed.building.first later, response.same.requestId, rfl,
      (by simp)⟩
  refine ⟨c', responded, fun few => ⟨fun sockets t run => ?_, fun sockets alive enough => ?_⟩⟩
  · rw [afloat.count] at few ⊢
    obtain ⟨k, h⟩ := start.run sendable run
    have content := response.content
    rw [udp] at content
    have split : contents (payload true (groups.take k)) ++ contents (payload true (groups.drop k)) =
        bufs.flatten := by
      rw [← contents_append, ← content, payload, payload, ← List.flatMap_append,
        List.take_append_drop]
      rfl
    rw [h.sent, payloads_datagrams]
    refine ⟨fun i d mem => ?_, ⟨_, split⟩, fun complete => ?_, fun running socket => ?_⟩
    · rw [List.getElem?_mapIdx, Option.map_eq_some_iff] at mem
      obtain ⟨g, mem, rfl⟩ := mem
      have mem' := List.mem_of_mem_take (List.mem_of_getElem? mem)
      have lt := (List.getElem?_eq_some_iff.1 mem).1
      rw [List.length_take] at lt
      exact ⟨response.length_datagram_le udp _ _ _ mem', headerFields_datagram id few (by omega) g⟩
    · have all := h.complete complete
      rw [all, List.take_length, List.length_mapIdx]
      exact ⟨rfl, content⟩
    · obtain ⟨t', k', step, -⟩ := h.step sendable running socket
      exact ⟨t', step⟩
  · refine start.completes sendable ⟨(by simp), (by simp)⟩ alive ?_
    rw [Nat.sub_zero, ← afloat.count]
    exact enough

theorem datagrams_reassemble_one : ∃ c' n t,
    (newOutgoing true 258).respond ["VALUE ".toUTF8.toList, "END\r\n".toUTF8.toList] = some c' ∧
      Run Transfer.Step ⟨c', [], none⟩ ([.takes 0, .blocked true, .takes 0].take n) t ∧
      t.result = some .complete ∧
      (t.sent.map (List.drop udpHeaderSize)).flatten = "VALUE END\r\n".toUTF8.toList := by
  obtain ⟨c', responded, reassemble⟩ := @datagrams_reassemble (newOutgoing true 258)
    (ready_newOutgoing true 258) rfl (by decide) rfl
    ["VALUE ".toUTF8.toList, "END\r\n".toUTF8.toList] (by decide +kernel)
  have single : c'.msglist.length = 1 := by
    have counted : ((newOutgoing true 258).respond
        ["VALUE ".toUTF8.toList, "END\r\n".toUTF8.toList]).map (·.msglist.length) = some 1 := by
      decide +kernel
    rw [responded] at counted
    exact Option.some.inj counted
  obtain ⟨runs, completes⟩ := reassemble (by omega)
  obtain ⟨n, t, run, complete⟩ := completes [.takes 0, .blocked true, .takes 0] (by decide) (by
    rw [single]
    decide)
  refine ⟨c', n, t, responded, run, complete, ?_⟩
  rw [((runs _ t run).2.2.1 complete).2]
  decide +kernel

end LogMemcached
