import LogMemcached.Current
import LogMemcached.Sequence

/-!
# What whole commands do

For each command of a single client: the store it leaves has the invariant and a sound view again,
and the view has changed in one of the stated ways.
-/

namespace LogMemcached

open ByteMem CText Tiling Fallible Store

variable {s s₁ s₂ s' : Store} {lay lay' : Layout} {id flags : ℕ} {key : Key} {comm : NreadComm}
  {block : List UInt8} {reply : Reply} {v v' : View} {r : Rec}

/-- What holds between commands without `lru_log`. -/
structure Steady (s : Store) (lay : Layout) : Prop where
  inv : StoreInv s lay
  sound : (s.view lay).Sound
  off : s.settings.lruLogEnabled = false

structure Leaves (s s' : Store) (lay' : Layout) (v : View) : Prop where
  inv : StoreInv s' lay'
  setup : SameSetup s s'
  view : s'.view lay' = v
  sound : v.Sound

theorem Outcome.leaves {own own' : Multiset ℕ} (out : Outcome s s' lay lay' own own' v)
    (sound : v.Sound) : Leaves s s' lay' v :=
  ⟨out.inv, out.setup, out.view, sound⟩

theorem Steady.stay (h : Steady s lay) : Leaves s s lay (s.view lay) :=
  ⟨h.inv, .refl s, rfl, h.sound⟩

theorem Leaves.steady (h : Leaves s s' lay' v) (off : s.settings.lruLogEnabled = false) :
    Steady s' lay' :=
  ⟨h.inv, by rw [h.view]; exact h.sound, by rw [h.setup.settings]; exact off⟩

/-- Without a `flush_all` a lookup misses a linked item only when it has expired. -/
theorem stale_of_find (live : s.oldestLive = 0) (absent : s.find key = none) :
    (s.view lay).Stale key s.currentTime := by
  intro o linked r mem off
  have linked : s.lookup key = some o := linked
  obtain ⟨id, found, rfl⟩ := Option.map_eq_some_iff.1 linked
  have hidden : s.itemIsHidden id = true := by
    by_contra visible
    rw [find_eq_some.2 ⟨found, by simpa using visible⟩] at absent
    cases absent
  have expired : s.itemIsExpired id = true := by
    simpa [Store.itemIsHidden, Store.itemIsFlushed, live] using hidden
  have same : exptimeOf s.log.mem (s.itemOf id) = r.exptime := congrArg Rec.exptime (recAt_eq mem off)
  simpa [Store.itemIsExpired, same, Rec.Expired] using expired

/-- The record `q` takes the place of one with the same key and client flags. -/
structure View.Rewrites (v : View) (q : Rec) (f : ℕ) : Prop where
  word : f < 2 ^ 32
  suffix : q.suffix = suffixText f q.data.length
  old : ∃ r ∈ v.recs, v.table q.key = some r.off ∧ r.suffix = suffixText f r.data.length

theorem table_of_find (found : s.find key = some id) :
    (s.view lay).table key = some (s.recAt id).off := by
  simp only [Store.view, Store.lookup, (find_eq_some.1 found).1, Option.map_some]
  rfl

/-! ## Storage commands -/

structure Received (s s' : Store) (lay lay' : Layout) (id : ℕ) (key : Key) (flags : ℕ) (r : Rec) :
    Prop where
  inv : StoreInv s' lay'
  setup : SameSetup s s'
  fresh : Fresh s' lay' id r
  alone : (s'.metas id).refcount = 1
  new : ∀ q ∈ s.journal lay, q.off ≠ r.off
  hkey : r.key = key
  plain : deletedBit flags = false
  suffix : r.suffix = suffixText flags r.data.length
  view : s'.view lay' = (s.view lay).log r
  sound : (s'.view lay').Sound

theorem Opens.received (h : Opens s s₁ lay lay' comm key flags (vlenOf block) (.upload id))
    (word : flags < 2 ^ 32) (sound : (s.view lay).Sound) :
    ∃ r, Received s (s₁.receive id block) lay lay' id key flags r := by
  cases h with
  | upload _ r plain fresh alone new hkey short value suffix length out =>
    have count : block.length = r.data.length := by
      unfold vlenOf at length
      omega
    have fills := fresh.write_data out.inv _ block le_rfl (by rw [count])
    set p : Rec := { r with
      data := slice (write s₁.log.mem (itemData s₁.log.mem (s₁.itemOf id)) block)
        (itemData s₁.log.mem (s₁.itemOf id)) r.data.length }
    have view : (s₁.receive id block).view lay' = (s.view lay).log p := by
      refine fills.view.trans ?_
      rw [out.view]
      exact View.put_log new rfl rfl
    have known : p.Known := by
      refine .inr ⟨⟨hkey ▸ short, ⟨flags, word, plain, ?_⟩, ?_⟩, .inl fresh.flags⟩
      · rw [fills.length]
        exact suffix
      · rw [fills.length]
        omega
    refine ⟨p, fills.inv, out.setup.trans fills.setup, fills.fresh, alone, new, hkey, plain, ?_, view,
      ?_⟩
    · rw [fills.length]
      exact suffix
    · rw [view]
      exact sound.log known new

inductive StoreEffect (s : Store) (v : View) (comm : NreadComm) (key : Key) (flags : ℕ) (vlen : ℤ) :
    Reply → View → Prop
  | rejected : StoreEffect s v comm key flags vlen .badFormat v
  | full (reply : Reply) (n : ℕ) (failed : reply ≠ .stored)
      (request : updateRequest key flags vlen = some n)
      (unserved : (memoryAllocate s.log n).2 = none) :
      StoreEffect s v comm key flags vlen reply (if comm = .set then v.unlink key else v)
  | spoilt (r : Rec) (hflags : r.flags = corruptedFlags) :
      StoreEffect s v comm key flags vlen .badDataChunk (v.log r)
  | stored (r : Rec) (first : comm ≠ .append ∧ comm ≠ .prepend) (hkey : r.key = key)
      (hflags : r.flags = storedFlags) (suffix : r.suffix = suffixText flags r.data.length) :
      StoreEffect s v comm key flags vlen .stored ((v.log r).link r.key r.off)
  | refused (r : Rec) (result : StoreItemType) (conditional : comm ≠ .set)
      (failed : result ≠ .stored) (hflags : r.flags = dirtyFlags) (v' : View)
      (left : v' = v.log r ∨ v' = (v.log r).unlink key) :
      StoreEffect s v comm key flags vlen result.reply v'
  | joined (r q : Rec) (f : ℕ) (joins : comm = .append ∨ comm = .prepend)
      (hflags : r.flags = dirtyFlags) (hkey : q.key = key) (stored : q.flags = storedFlags)
      (rewrites : v.Rewrites q f) :
      StoreEffect s v comm key flags vlen .stored (((v.log r).log q).link q.key q.off)

theorem Received.complete {vlen : ℤ} (h : Received s s₁ lay lay' id key flags r)
    (off : s.settings.lruLogEnabled = false)
    (second : comm = .append ∨ comm = .prepend → ∀ oldId, s₁.find key = some oldId →
      RoomFor s₁ (s₁.joinSize id oldId))
    (run : s₁.completeNreadAscii comm id = .ok (s', reply)) :
    ∃ lay₂ v, Leaves s s' lay₂ v ∧
      StoreEffect s (s.view lay) comm key flags vlen reply v := by
  have dirty : r.flags = dirtyFlags := h.fresh.flags
  have proper := h.fresh.proper h.sound
  have join : s₁.JoinOk comm id r := h.fresh.joinOk h.inv h.sound (by rw [h.hkey]; exact second)
  have quiet : s₁.settings.lruLogEnabled = false := by rw [h.setup.settings, off]
  have put (f : UInt8) : (s₁.view lay').put { r with flags := f } =
      (s.view lay).log { r with flags := f } := by
    rw [h.view]
    exact View.put_log h.new rfl rfl
  obtain ⟨lay₂, ⟨-, result, rfl, stores⟩ | ⟨-, rfl, out⟩⟩ := h.fresh.completeNreadAscii h.inv h.alone
    (h.fresh.apart h.inv h.sound) proper.short join (fun _ _ _ => quiet) run
  · obtain ⟨v, out, settled⟩ := stores.sound h.inv h.sound h.fresh.mem dirty
    have leaves : Leaves s s' lay₂ v :=
      ⟨out.inv, h.setup.trans out.setup, out.view, settled.sound⟩
    refine ⟨lay₂, v, leaves, ?_⟩
    rw [← out.view]
    cases stores with
    | stored accepts out =>
      rw [out.view, put]
      refine .stored { r with flags := storedFlags } ⟨?_, ?_⟩ h.hkey rfl h.suffix
      · rintro rfl
        cases found : s₁.find r.key <;> simp [Store.accepts, found] at accepts
      · rintro rfl
        cases found : s₁.find r.key <;> simp [Store.accepts, found] at accepts
    | refused _ rejects failed out =>
      refine .refused r result ?_ failed dirty _ ?_
      · rintro rfl
        cases found : s₁.find r.key <;> simp [Store.accepts, found] at rejects
      · rw [out.view, h.view, h.hkey]
        split_ifs
        · exact .inr rfl
        · exact .inl rfl
    | tombstone oldId q found joins marked hkey hflags new out =>
      obtain ⟨f, holds⟩ := h.inv.holds h.sound found
      rw [holds.client, holds.plain] at marked
      cases marked
    | combined oldId q found joins hkey hflags new suffix two out =>
      obtain ⟨f, holds⟩ := h.inv.holds h.sound found
      rw [holds.client] at suffix
      have linked : (s₁.view lay').table r.key = _ := table_of_find found
      have mem := holds.mem
      rw [journal_of_view h.view] at mem
      have old : s₁.recAt oldId ∈ (s.view lay).recs := by
        refine (View.mem_log mem).resolve_right fun same => ?_
        have stored := holds.flags
        rw [same, dirty] at stored
        exact absurd stored (by decide)
      rw [out.view, h.view, ← hkey]
      refine .joined r q f joins dirty (hkey.trans h.hkey) hflags ⟨holds.word, suffix, _, old, ?_,
        holds.suffix⟩
      rw [h.view] at linked
      rw [hkey]
      exact linked
  · have sound : ((s.view lay).log { r with flags := corruptedFlags }).Sound := by
      rw [← put]
      exact h.sound.put h.fresh.mem dirty rfl
        (.inr ⟨⟨proper.short, proper.flags, proper.two⟩, .inr (.inr rfl)⟩)
    refine ⟨lay₂, _, ⟨out.inv, h.setup.trans out.setup, out.view.trans (put _), sound⟩, ?_⟩
    exact .spoilt _ rfl

theorem doItemAlloc_unserved {exptime : ℕ} {nbytes : ℤ} {succeed : Bool}
    (plain : deletedBit flags = false)
    (run : s.doItemAlloc key flags exptime nbytes = .ok (s', none, succeed)) :
    (memoryAllocate s.log (allocTotal s.settings.useCas key.length flags nbytes)).2 = none := by
  obtain ⟨l, got, alloc, ran⟩ := doItemAlloc_ran run
  rcases first : memoryAllocate s.log (allocTotal s.settings.useCas key.length flags nbytes) with
    ⟨l', _ | o⟩
  · rfl
  · rw [memlogAllocRetry, first] at alloc
    cases alloc
    cases ran with
    | tombstone marked => exact absurd (plain.symm.trans marked) (by decide)

theorem processUpdateCommand_rejected {exptime vlen : ℤ} {cas : ℕ}
    (request : updateRequest key flags vlen = none) :
    s.processUpdateCommand comm key flags exptime vlen cas = .ok (s, .reply .badFormat) := by
  unfold updateRequest at request
  split_ifs at request with rejected
  unfold Store.processUpdateCommand
  split_ifs with long range
  · rfl
  · rfl
  · exact absurd rejected (not_or.2 ⟨long, range⟩)

theorem processUpdateCommand_unserved {exptime vlen : ℤ} {cas n : ℕ} (h : StoreInv s lay)
    (plain : deletedBit flags = false) (request : updateRequest key flags vlen = some n)
    (run : s.processUpdateCommand comm key flags exptime vlen cas = .ok (s', .reply reply)) :
    reply ≠ .stored ∧ (memoryAllocate s.log n).2 = none := by
  unfold updateRequest at request
  split_ifs at request with rejected
  cases request
  unfold Store.processUpdateCommand at run
  rw [not_or] at rejected
  rw [if_neg rejected.1, if_neg rejected.2] at run
  obtain ⟨⟨s₁, it, succeed⟩, alloc, run⟩ := bind_ran.1 run
  cases it with
  | none =>
    have unserved := doItemAlloc_unserved plain alloc
    rw [h.useCas] at unserved
    obtain ⟨s₂, -, run⟩ := bind_ran.1 run
    cases pure_ran.1 run
    refine ⟨?_, unserved⟩
    split_ifs <;> decide
  | some id => cases pure_ran.1 run

theorem Steady.store {exptime : ℤ} {cas : UInt64} {answer : Answer} {flags : UInt32}
    (h : Steady s lay) (plain : (Command.store comm key flags exptime cas block).Plain)
    (room : ∀ n, s.request (.store comm key flags exptime cas block) = some n → RoomFor s n)
    (second : s.SecondFits (.store comm key flags exptime cas block))
    (run : s.exec (.store comm key flags exptime cas block) = .ok (s', answer)) :
    ∃ lay' v reply, answer = .line reply ∧ Leaves s s' lay' v ∧
      StoreEffect s (s.view lay) comm key flags.toNat (vlenOf block) reply v := by
  obtain ⟨⟨s₁, update⟩, header, run⟩ := bind_ran.1 run
  have word : flags.toNat < 2 ^ 32 := flags.toNat_lt
  cases request : updateRequest key flags.toNat (vlenOf block) with
  | none =>
    rw [processUpdateCommand_rejected request] at header
    cases header
    obtain ⟨rfl, rfl⟩ := pair_ran.1 run
    exact ⟨lay, _, _, rfl, h.stay, .rejected⟩
  | some n =>
    obtain ⟨lay₁, opens⟩ := h.inv.processUpdateCommand word room header
    cases update with
    | reply reply =>
      obtain ⟨rfl, rfl⟩ := pair_ran.1 run
      obtain ⟨v, out, sound, -⟩ := opens.sound h.inv h.sound
      refine ⟨lay₁, v, reply, rfl, out.leaves sound, ?_⟩
      rw [← out.view]
      cases opens with
      | rejected same layout =>
        subst same layout
        exact .rejected
      | full _ out =>
        rw [out.view]
        obtain ⟨failed, unserved⟩ := processUpdateCommand_unserved h.inv plain request header
        exact .full reply n failed request unserved
      | tombstone _ r marked hkey hflags new out =>
        rw [show deletedBit flags.toNat = false from plain] at marked
        cases marked
    | upload id =>
      obtain ⟨⟨s₂, reply⟩, complete, run⟩ := bind_ran.1 run
      obtain ⟨rfl, rfl⟩ := pair_ran.1 run
      obtain ⟨r, received⟩ := opens.received word h.sound
      obtain ⟨lay₂, v, leaves, effect⟩ := received.complete h.off
        (fun joins oldId found => second joins s₁ id oldId header found) complete
      exact ⟨lay₂, v, reply, rfl, leaves, effect⟩

/-! ## Commands that write an item again -/

/-- What `touch`, `incr` and `decr` do. -/
inductive RelogEffect (s : Store) (v : View) (key : Key) : View → Prop
  | missing (absent : s.find key = none) : RelogEffect s v key (v.unlink key)
  | refused : RelogEffect s v key v
  | rewritten (q : Rec) (f : ℕ) (hkey : q.key = key) (stored : q.flags = storedFlags)
      (rewrites : v.Rewrites q f) : RelogEffect s v key ((v.log q).link q.key q.off)

theorem Relogs.effect {given : ℕ → ℕ} (relogs : Relogs s s' lay lay' key given)
    (h : Steady s lay) (short : key.length ≤ 250)
    (reads : ∀ id f, s.find key = some id → Holds s lay key id f → given id = f) :
    ∃ v, Leaves s s' lay' v ∧ RelogEffect s (s.view lay) key v := by
  obtain ⟨v, out, sound, -⟩ := relogs.sound h.inv h.sound short reads
  refine ⟨v, out.leaves sound, ?_⟩
  rw [← out.view]
  cases relogs with
  | missing absent out =>
    rw [out.view]
    exact .missing absent
  | refused out =>
    rw [out.view]
    exact .refused
  | tombstone id r found marked hkey hflags new out =>
    obtain ⟨f, holds⟩ := h.inv.holds h.sound found
    rw [reads id f found holds, holds.plain] at marked
    cases marked
  | relinked id q found hkey hflags new suffix two out =>
    obtain ⟨f, holds⟩ := h.inv.holds h.sound found
    rw [reads id f found holds] at suffix
    rw [out.view, ← hkey]
    refine .rewritten q f rfl hflags ⟨holds.word, suffix, _, holds.mem, ?_, holds.suffix⟩
    rw [hkey]
    exact table_of_find found

theorem Steady.touch {exptime : ℤ} {answer : Answer} (h : Steady s lay)
    (room : ∀ n, s.request (.touch key exptime) = some n → RoomFor s n)
    (run : s.exec (.touch key exptime) = .ok (s', answer)) :
    ∃ lay' v, Leaves s s' lay' v ∧ RelogEffect s (s.view lay) key v := by
  obtain ⟨⟨s₁, reply⟩, command, run⟩ := bind_ran.1 run
  obtain ⟨rfl, -⟩ := pair_ran.1 run
  unfold Store.processTouchCommand at command
  split_ifs at command with long
  · obtain ⟨rfl, -⟩ := pair_ran.1 command
    exact ⟨lay, _, h.stay, .refused⟩
  · obtain ⟨⟨s₂, it⟩, touch, command⟩ := bind_ran.1 command
    obtain ⟨rfl, -⟩ := pair_ran.1 command
    have short : key.length ≤ 250 := not_lt.1 long
    obtain ⟨lay', relogs⟩ := h.inv.doItemTouch short room touch
    exact ⟨lay', relogs.effect h short fun _ _ _ holds => holds.client⟩

theorem Steady.arithmetic {incr : Bool} {delta : ℕ} {answer : Answer} (h : Steady s lay)
    (room : ∀ n, s.request (.arithmetic key incr delta) = some n → RoomFor s n)
    (run : s.exec (.arithmetic key incr delta) = .ok (s', answer)) :
    ∃ lay' v, Leaves s s' lay' v ∧ RelogEffect s (s.view lay) key v := by
  obtain ⟨⟨s₁, reply⟩, command, run⟩ := bind_ran.1 run
  obtain ⟨rfl, -⟩ := pair_ran.1 run
  unfold Store.processArithmeticCommand at command
  split_ifs at command with long
  · obtain ⟨rfl, -⟩ := pair_ran.1 command
    exact ⟨lay, _, h.stay, .refused⟩
  · obtain ⟨⟨s₂, result⟩, add, command⟩ := bind_ran.1 command
    obtain ⟨rfl, -⟩ := pair_ran.1 command
    have short : key.length ≤ 250 := not_lt.1 long
    obtain ⟨lay', relogs | ⟨id, -, -, out⟩⟩ := h.inv.doAddDelta short (fun id found large n request =>
      room n (by simp only [Store.request, found, Option.bind_some, if_neg (not_le.2 large), request]))
      add
    · exact ⟨lay', relogs.effect h short fun _ _ _ holds => holds.delta⟩
    · exact ⟨lay', _, out.leaves h.sound, .refused⟩

/-! ## Deletion -/

/-- What a `delete` does. -/
inductive DeleteEffect (s s' : Store) (v : View) (key : Key) : Reply → View → Prop
  | rejected (same : s' = s) : DeleteEffect s s' v key .badFormat v
  | missing (absent : s.find key = none) : DeleteEffect s s' v key .notFound (v.unlink key)
  | full (same : s'.find key = s.find key) : DeleteEffect s s' v key .noMemoryDelete v
  | deleted (r : Rec) (hkey : r.key = key) (hflags : r.flags = tombFlags) :
      DeleteEffect s s' v key .deleted ((v.log r).unlink r.key)

theorem Steady.delete {answer : Answer} (h : Steady s lay)
    (room : ∀ n, s.request (.delete key) = some n → RoomFor s n)
    (run : s.exec (.delete key) = .ok (s', answer)) :
    ∃ lay' v reply, answer = .line reply ∧ Leaves s s' lay' v ∧
      DeleteEffect s s' (s.view lay) key reply v := by
  obtain ⟨⟨s₁, reply⟩, command, run⟩ := bind_ran.1 run
  obtain ⟨rfl, rfl⟩ := pair_ran.1 run
  unfold Store.processDeleteCommand at command
  split_ifs at command with long
  · obtain ⟨rfl, rfl⟩ := pair_ran.1 command
    exact ⟨lay, _, _, rfl, h.stay, .rejected rfl⟩
  · obtain ⟨⟨s₂, it⟩, get, command⟩ := bind_ran.1 command
    cases it with
    | none =>
      obtain ⟨rfl, rfl⟩ := pair_ran.1 command
      obtain ⟨absent, -⟩ := h.inv.get_none get
      exact ⟨lay, _, _, rfl, (h.inv.get_missing get).leaves (h.sound.unlink key), .missing absent⟩
    | some id =>
      obtain ⟨found, member, hkey, inv₂, table⟩ := h.inv.get_some get
      obtain ⟨⟨s₃, succeed⟩, log, command⟩ := bind_ran.1 command
      have room := (room (deleteRequest key)
        (by simp only [Store.request, found, Option.map_some])).congr table.log
      obtain ⟨lay₃, metas, find, ⟨rfl, out⟩ | ⟨rfl, r, rkey, rflags, new, out⟩⟩ :=
        StoreInv.deleteLog inv₂ (not_lt.1 long) room log
      · obtain ⟨rfl, rfl⟩ := pair_ran.1 command
        have view : s₃.view lay₃ = s.view lay := out.view.trans table.view
        refine ⟨lay₃, _, _, rfl, ⟨out.inv, table.setup.trans out.setup, view, h.sound⟩, .full ?_⟩
        rw [find]
        exact h.inv.find_get get
      · obtain ⟨s₄, unlink, command⟩ := bind_ran.1 command
        obtain ⟨rfl, rfl⟩ := pair_ran.1 command
        have linked : (s₃.metas id).linked = true := by
          rw [metas id member]
          exact (inv₂.linked id).1 member
        have old : s₂.recAt id ∈ s₃.journal lay₃ := by
          rw [journal_of_view out.view]
          exact List.mem_append_left _ (inv₂.recAt_mem member)
        have same : s₃.recAt id = s₂.recAt id :=
          recAt_eq old (congrArg ItemMeta.item (metas id member)).symm
        have rest := StoreInv.deleteUnlink out.inv unlink
        rw [if_pos linked, out.view, table.view, show s₃.keyAt id = s₂.keyAt id from
          congrArg Rec.key same, hkey, ← rkey] at rest
        have new : ∀ q ∈ (s.view lay).recs, q.off ≠ r.off := by
          rw [table.journal] at new
          exact new
        exact ⟨lay₃, _, _, rfl, ⟨rest.inv, table.setup.trans (out.setup.trans rest.setup), rest.view,
          (h.sound.tombstone rflags new).unlink r.key⟩, .deleted r rkey rflags⟩

/-- What a binary `delete` does. -/
inductive BinDeleteEffect (s : Store) (v : View) (key : Key) : Bool → View → Prop
  | missing (absent : s.find key = none) : BinDeleteEffect s v key false (v.unlink key)
  | mismatch : BinDeleteEffect s v key false v
  | deleted : BinDeleteEffect s v key true (v.unlink key)

theorem Steady.binDelete {cas : ℕ} {answer : Answer} (h : Steady s lay)
    (run : s.exec (.binDelete key cas) = .ok (s', answer)) :
    ∃ v succeed, answer = .done succeed ∧ Leaves s s' lay v ∧
      BinDeleteEffect s (s.view lay) key succeed v := by
  obtain ⟨⟨s₁, succeed⟩, command, run⟩ := bind_ran.1 run
  obtain ⟨rfl, rfl⟩ := pair_ran.1 run
  obtain ⟨⟨s₂, it⟩, get, command⟩ := bind_ran.1 command
  cases it with
  | none =>
    obtain ⟨rfl, rfl⟩ := pair_ran.1 command
    obtain ⟨absent, -⟩ := h.inv.get_none get
    exact ⟨_, _, rfl, (h.inv.get_missing get).leaves (h.sound.unlink key), .missing absent⟩
  | some id =>
    dsimp only at command
    split_ifs at command
    · obtain ⟨s₃, unlink, command⟩ := bind_ran.1 command
      obtain ⟨s₄, remove, command⟩ := bind_ran.1 command
      obtain ⟨rfl, rfl⟩ := pair_ran.1 command
      exact ⟨_, _, rfl, (h.inv.unlink_found get unlink remove).leaves (h.sound.unlink key), .deleted⟩
    · obtain ⟨s₃, remove, command⟩ := bind_ran.1 command
      obtain ⟨rfl, rfl⟩ := pair_ran.1 command
      obtain ⟨-, -, -, inv₂, table⟩ := h.inv.get_some get
      have same := table.trans (sameTable_doItemRemove remove)
      exact ⟨_, _, rfl, ⟨SweepInv.doItemRemove inv₂ remove, same.setup, same.view, h.sound⟩, .mismatch⟩

/-! ## Retrieval -/

/-- A key whose item a lookup unlinks: expired, unless there was a `flush_all`. -/
def Store.Lapses (s : Store) (v : View) (key : Key) : Prop :=
  s.oldestLive = 0 → v.Stale key s.currentTime

theorem SameSetup.lapses (h : SameSetup s s') : s'.Lapses v key ↔ s.Lapses v key := by
  have clock := h.clock
  simp only [Store.clock, Prod.mk.injEq] at clock
  rw [Store.Lapses, Store.Lapses, clock.1, clock.2.1]

inductive Hides (s : Store) : View → View → Prop
  | refl (v : View) : Hides s v v
  | step {v v' : View} {key : Key} (lapses : s.Lapses v key) (rest : Hides s (v.unlink key) v') :
      Hides s v v'

theorem getKey_none {returnCas : Bool} (h : StoreInv s lay)
    (run : s.getKey returnCas key = .ok (s', none)) : s.find key = none := by
  obtain ⟨⟨s₁, it⟩, get, run⟩ := bind_ran.1 run
  cases it with
  | none => exact (h.get_none get).1
  | some id =>
    obtain ⟨⟨s₂, new⟩, -, run⟩ := bind_ran.1 run
    cases new <;> cases pure_ran.1 run

theorem Steady.getKeys {returnCas : Bool} {items : List ℕ} {segments : List Segment}
    {keys : List Key} {response : Option (List ℕ × List Segment)} (h : Steady s lay)
    (run : s.processGetKeys returnCas items segments keys = .ok (s', response)) :
    ∃ v, Leaves s s' lay v ∧ Hides s (s.view lay) v := by
  induction keys generalizing s items segments with
  | nil =>
    obtain ⟨rfl, -⟩ := pair_ran.1 run
    exact ⟨_, h.stay, .refl _⟩
  | cons key keys ih =>
    rw [Store.processGetKeys] at run
    split_ifs at run
    · obtain ⟨s₁, remove, run⟩ := bind_ran.1 run
      obtain ⟨rfl, -⟩ := pair_ran.1 run
      have same := sameTable_removeAll remove
      exact ⟨_, ⟨h.inv.removeAll remove, same.setup, same.view, h.sound⟩, .refl _⟩
    · obtain ⟨⟨s₁, hit⟩, first, run⟩ := bind_ran.1 run
      obtain ⟨out, -⟩ := h.inv.getKey h.off first
      have quiet : s₁.settings.lruLogEnabled = false := by rw [out.setup.settings, h.off]
      have hides {v v' : View} (rest : Hides s₁ v v') : Hides s v v' := by
        induction rest with
        | refl v => exact .refl v
        | step lapses _ ih => exact .step (out.setup.lapses.1 lapses) ih
      cases hit with
      | none =>
        have absent := getKey_none h.inv first
        have view : s₁.view lay = (s.view lay).unlink key := out.view
        obtain ⟨v, leaves, rest⟩ := ih ⟨out.inv, by rw [view]; exact h.sound.unlink key, quiet⟩ run
        rw [view] at rest
        exact ⟨v, ⟨leaves.inv, out.setup.trans leaves.setup, leaves.view, leaves.sound⟩,
          .step (fun live => stale_of_find live absent) (hides rest)⟩
      | some p =>
        obtain ⟨id, more⟩ := p
        have view : s₁.view lay = s.view lay := out.view
        obtain ⟨v, leaves, rest⟩ := ih ⟨out.inv, by rw [view]; exact h.sound, quiet⟩ run
        rw [view] at rest
        exact ⟨v, ⟨leaves.inv, out.setup.trans leaves.setup, leaves.view, leaves.sound⟩, hides rest⟩

theorem Steady.get {returnCas : Bool} {keys : List Key} {answer : Answer} (h : Steady s lay)
    (run : s.exec (.get returnCas keys) = .ok (s', answer)) :
    ∃ v, Leaves s s' lay v ∧ Hides s (s.view lay) v := by
  obtain ⟨⟨s₁, response⟩, command, run⟩ := bind_ran.1 run
  obtain ⟨v, leaves, hides⟩ := h.getKeys command
  cases response with
  | none =>
    obtain ⟨rfl, -⟩ := pair_ran.1 run
    exact ⟨v, leaves, hides⟩
  | some p =>
    obtain ⟨s₂, release, run⟩ := bind_ran.1 run
    obtain ⟨rfl, -⟩ := pair_ran.1 run
    have remove := removeAll_of_release release
    have same := sameTable_removeAll remove
    exact ⟨v, ⟨StoreInv.removeAll leaves.inv remove, leaves.setup.trans same.setup,
      same.view.trans leaves.view, leaves.sound⟩, hides⟩

/-! ## Cleaning and time -/

theorem View.drop_zero (v : View) : v.drop 0 = v := by
  refine View.ext rfl (funext fun key => ?_)
  change Option.filter _ (v.table key) = v.table key
  cases v.table key with
  | none => rfl
  | some o => simp

theorem Steady.clean {answer : Answer} (h : Steady s lay) (run : s.exec .clean = .ok (s', answer)) :
    ∃ lay' k, Leaves s s' lay' ((s.view lay).drop k) := by
  obtain ⟨s₁, command, run⟩ := bind_ran.1 run
  obtain ⟨rfl, -⟩ := pair_ran.1 run
  obtain ⟨guard, n, clean⟩ | rfl := lruMaintainerFree_ran command
  · obtain ⟨lay', k, out, -⟩ := h.inv.clean guard clean
    exact ⟨lay', k, out.leaves (h.sound.drop k)⟩
  · have same : s.view lay = (s.view lay).drop 0 := (View.drop_zero _).symm
    exact ⟨lay, 0, h.inv, .refl s, same, h.sound.drop 0⟩

theorem Steady.reclock (h : Steady s lay) (now oldestLive oldestCas casId : ℕ) :
    Steady (s.reclock now oldestLive oldestCas casId) lay :=
  ⟨h.inv.reclock .., h.sound, h.off⟩

/-! ## Steps -/

/-- The log can serve or refuse what a command asks for without losing track of its records. -/
structure Store.Fits (s : Store) (cmd : Command) : Prop where
  first : ∀ n, s.request cmd = some n → RoomFor s n
  second : s.SecondFits cmd

theorem Steady.exec {cmd : Command} {answer : Answer} (h : Steady s lay) (fits : s.Fits cmd)
    (run : s.exec cmd = .ok (s', answer)) : ∃ lay', Steady s' lay' := by
  cases cmd with
  | store comm key flags exptime cas block =>
    obtain ⟨⟨s₁, update⟩, header, run⟩ := bind_ran.1 run
    have word : flags.toNat < 2 ^ 32 := flags.toNat_lt
    obtain ⟨lay₁, opens⟩ := h.inv.processUpdateCommand word fits.first header
    cases update with
    | reply reply =>
      obtain ⟨rfl, rfl⟩ := pair_ran.1 run
      obtain ⟨v, out, sound, -⟩ := opens.sound h.inv h.sound
      exact ⟨lay₁, (out.leaves sound).steady h.off⟩
    | upload id =>
      obtain ⟨⟨s₂, reply⟩, complete, run⟩ := bind_ran.1 run
      obtain ⟨rfl, rfl⟩ := pair_ran.1 run
      obtain ⟨r, received⟩ := opens.received word h.sound
      have finished : ∃ lay₂ v, Leaves s s₂ lay₂ v ∧
          StoreEffect s (s.view lay) comm key flags.toNat (vlenOf block) reply v :=
        received.complete h.off
          (fun joins oldId found => fits.second joins s₁ id oldId header found) complete
      obtain ⟨lay₂, v, leaves, -⟩ := finished
      exact ⟨lay₂, leaves.steady h.off⟩
  | get returnCas keys =>
    obtain ⟨v, leaves, -⟩ := h.get run
    exact ⟨lay, leaves.steady h.off⟩
  | touch key exptime =>
    obtain ⟨lay', v, leaves, -⟩ := h.touch fits.first run
    exact ⟨lay', leaves.steady h.off⟩
  | arithmetic key incr delta =>
    obtain ⟨lay', v, leaves, -⟩ := h.arithmetic fits.first run
    exact ⟨lay', leaves.steady h.off⟩
  | delete key =>
    obtain ⟨lay', v, reply, -, leaves, -⟩ := h.delete fits.first run
    exact ⟨lay', leaves.steady h.off⟩
  | binDelete key cas =>
    obtain ⟨v, done, -, leaves, -⟩ := h.binDelete run
    exact ⟨lay, leaves.steady h.off⟩
  | flushAll exptime =>
    obtain ⟨rfl, -⟩ := pair_ran.1 run
    obtain ⟨oldestLive, oldestCas, casId, eq⟩ := flushAll_eq s exptime
    rw [eq]
    exact ⟨lay, h.reclock ..⟩
  | clean =>
    obtain ⟨lay', k, leaves⟩ := h.clean run
    exact ⟨lay', leaves.steady h.off⟩
  | tick n =>
    obtain ⟨rfl, -⟩ := pair_ran.1 run
    exact ⟨lay, h.reclock (s.currentTime + n) s.oldestLive s.oldestCas s.casId⟩

/-- A command with plain client flags whose requests the log can take. -/
structure FittingStep (s : Store) (cmd : Command) (s' : Store) : Prop where
  plain : cmd.Plain
  fits : s.Fits cmd
  ran : ∃ answer, s.exec cmd = .ok (s', answer)

/-- `Command.Plain` and the absence of a second request, in a form that can be evaluated. -/
def Command.isSimple : Command → Bool
  | .store comm _ flags _ _ _ =>
      !deletedBit flags.toNat && decide (comm ≠ .append) && decide (comm ≠ .prepend)
  | _ => true

theorem Command.plain_of_simple {cmd : Command} (simple : cmd.isSimple = true) :
    cmd.Plain ∧ s.SecondFits cmd := by
  cases cmd with
  | store comm key flags exptime cas block =>
    simp only [Command.isSimple, Bool.and_eq_true, Bool.not_eq_true', decide_eq_true_eq] at simple
    obtain ⟨⟨plain, append⟩, prepend⟩ := simple
    exact ⟨plain, fun joins => absurd joins (not_or.2 ⟨append, prepend⟩)⟩
  | _ => exact ⟨trivial, trivial⟩

/-- A command that meets these conditions and asks for what the log can take. -/
def Store.execSimply (s : Store) (cmd : Command) : Option (Store × Answer) :=
  if cmd.isSimple && (s.request cmd).all fun n =>
    decide (16 * n ≤ s.log.memLimit) && decide (WrapOk s.log n)
  then (s.exec cmd).toOption else none

theorem execSimply_some {cmd : Command} {answer : Answer}
    (ran : s.execSimply cmd = some (s', answer)) :
    cmd.Plain ∧ s.Fits cmd ∧ s.exec cmd = .ok (s', answer) := by
  rw [Store.execSimply, Option.ite_none_right_eq_some, Bool.and_eq_true] at ran
  obtain ⟨⟨simple, fits⟩, ran⟩ := ran
  obtain ⟨plain, second⟩ := Command.plain_of_simple (s := s) simple
  refine ⟨plain, ⟨fun n request => ?_, second⟩, ?_⟩
  · simp only [request, Option.all_some, Bool.and_eq_true, decide_eq_true_eq] at fits
    exact ⟨fits.1, fits.2⟩
  · exact ok_of_toOption ran

end LogMemcached
