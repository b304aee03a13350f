import LogMemcached.Cleaning
import LogMemcached.SequenceContents

/-!
# The cleaner ends

`memlog_free_chunk` steps from record to record by what the bytes at `mem_current_freeing` say.  In
the runs of a client whose records have at most a megabyte, the cursor of the cleaner stays near a
multiple of an eighth of the log, so that a wrapped log never wraps again, every byte the cleaner
reads is the header of a record, and its loop ends.  Without CAS ids the size of a tombstone is read
with eight bytes too many, and the loop can spin.
-/

namespace LogMemcached

open ByteMem CText Tiling Fallible Store Transition

/-! ## The cursor of the cleaner -/

/-- The cursor of the cleaner and the size of the log are the same. -/
structure SameReach (l l' : Memlog) : Prop where
  freeing : l'.memCurrentFreeing = l.memCurrentFreeing
  limit : l'.memLimit = l.memLimit

section Reach

variable {l l' l'' : Memlog} {s s₁ s' : Store} {key : Key} {id newId size : ℕ} {comm : NreadComm}

theorem SameReach.refl (l : Memlog) : SameReach l l := ⟨rfl, rfl⟩

theorem SameReach.trans (h : SameReach l l') (h' : SameReach l' l'') : SameReach l l'' :=
  ⟨h'.freeing.trans h.freeing, h'.limit.trans h.limit⟩

theorem SameReach.of_eq (eq : l' = l) : SameReach l l' := eq ▸ .refl l

theorem sameReach_turn (l : Memlog) (size : ℕ) : SameReach l (l.turn size) := by
  unfold Memlog.turn
  split_ifs
  · exact ⟨rfl, rfl⟩
  · exact .refl l

theorem sameReach_memoryAllocate (l : Memlog) (size : ℕ) : SameReach l (memoryAllocate l size).1 := by
  have turn := sameReach_turn l size
  unfold memoryAllocate
  dsimp only
  split_ifs
  · exact turn
  · exact ⟨turn.freeing, turn.limit⟩

theorem sameReach_retry (n : ℕ) (l : Memlog) (size : ℕ) : SameReach l (memlogAllocRetry n l size).1 := by
  induction n generalizing l with
  | zero => exact .refl l
  | succ n ih =>
    have first := sameReach_memoryAllocate l size
    rw [memlogAllocRetry]
    rcases alloc : memoryAllocate l size with ⟨l₁, _ | o⟩
    · rw [alloc] at first
      exact first.trans (ih l₁)
    · rw [alloc] at first
      exact first

theorem doItemAlloc_keeps {flags exptime : ℕ} {nbytes : ℤ} {it : Option ℕ} {succeed : Bool}
    (run : s.doItemAlloc key flags exptime nbytes = .ok (s', it, succeed)) :
    SameReach s.log s'.log ∧ s'.settings = s.settings := by
  have reach := sameReach_retry 3 s.log (allocTotal s.settings.useCas key.length flags nbytes)
  obtain ⟨l, got, alloc, ran⟩ := doItemAlloc_ran run
  rw [alloc] at reach
  cases ran with
  | full => exact ⟨reach, rfl⟩
  | tombstone => exact ⟨⟨reach.freeing, reach.limit⟩, rfl⟩
  | item _ _ shape => exact shape ▸ ⟨⟨reach.freeing, reach.limit⟩, rfl⟩

def Yields (s s' : Store) : Prop :=
  ∀ id, (s'.metas id).slabbed = false → (s.metas id).slabbed = false ∧ s'.itemOf id = s.itemOf id

theorem Yields.of_metas (metas : s'.metas = s.metas) : Yields s s' := fun id used => by
  rw [Store.itemOf, Store.itemOf, ← metas]
  exact ⟨used, rfl⟩

theorem Yields.refl (s : Store) : Yields s s := .of_metas rfl

theorem Yields.trans (h : Yields s s₁) (h' : Yields s₁ s') : Yields s s' := fun id used => by
  obtain ⟨used₁, item₁⟩ := h' id used
  obtain ⟨used, item⟩ := h id used₁
  exact ⟨used, item₁.trans item⟩

theorem yields_update {it : ItemMeta} (metas : s'.metas = Function.update s.metas id it)
    (kept : it.slabbed = false → (s.metas id).slabbed = false ∧ it.item = (s.metas id).item) :
    Yields s s' := by
  intro k used
  rw [Store.itemOf, metas] at *
  by_cases eq : k = id
  · subst eq
    rw [Function.update_self] at used ⊢
    exact kept used
  · rw [Function.update_of_ne eq] at used ⊢
    exact ⟨used, rfl⟩

theorem yields_refcountIncr : Yields s (s.refcountIncr id) :=
  yields_update rfl fun used => ⟨used, rfl⟩

/-- Lookups and unlinking leave the log and the settings alone and at most give metadata back. -/
structure SameLog (s s' : Store) : Prop where
  log : s'.log = s.log
  settings : s'.settings = s.settings
  yields : Yields s s'

theorem SameLog.refl (s : Store) : SameLog s s := ⟨rfl, rfl, .refl s⟩

theorem SameLog.trans (h : SameLog s s₁) (h' : SameLog s₁ s') : SameLog s s' :=
  ⟨h'.log.trans h.log, h'.settings.trans h.settings, h.yields.trans h'.yields⟩

theorem SameLog.reach (h : SameLog s s') : SameReach s.log s'.log := .of_eq h.log

theorem sameLog_refcountIncr : SameLog s (s.refcountIncr id) := ⟨rfl, rfl, yields_refcountIncr⟩

theorem sameLog_doItemRemove (run : s.doItemRemove id = .ok s') : SameLog s s' := by
  have decr : Yields s (s.refcountDecr id) := yields_update rfl fun used => ⟨used, rfl⟩
  refine ⟨(sameTable_doItemRemove run).log, (sameTable_doItemRemove run).settings, ?_⟩
  obtain ⟨-, -, ⟨-, rfl⟩ | ⟨-, -, rfl⟩⟩ := doItemRemove_ran run
  · exact decr
  · exact decr.trans (yields_update rfl fun used => by cases used)

theorem sameLog_doItemUnlink (run : s.doItemUnlink id = .ok s') : SameLog s s' := by
  unfold Store.doItemUnlink at run
  split_ifs at run
  · obtain ⟨s₁, delete, run⟩ := bind_ran.1 run
    rw [Store.assocDelete, check_bind_ran] at delete
    obtain rfl := pure_ran.1 delete.2
    have same := sameLog_doItemRemove run
    refine ⟨same.log, same.settings, Yields.trans ?_ same.yields⟩
    exact yields_update rfl fun used => ⟨used, rfl⟩
  · obtain rfl := pure_ran.1 run
    exact .refl s

theorem sameLog_doItemGet {it : Option ℕ} (run : s.doItemGet key = .ok (s', it)) : SameLog s s' := by
  unfold Store.doItemGet at run
  cases found : s.assocFind key with
  | none =>
    rw [found] at run
    obtain ⟨rfl, -⟩ := pair_ran.1 run
    exact .refl s
  | some id =>
    rw [found] at run
    dsimp only at run
    split_ifs at run
    · obtain ⟨s₁, unlink, run⟩ := bind_ran.1 run
      obtain ⟨s₂, remove, run⟩ := bind_ran.1 run
      obtain ⟨rfl, -⟩ := pair_ran.1 run
      exact sameLog_refcountIncr.trans
        ((sameLog_doItemUnlink unlink).trans (sameLog_doItemRemove remove))
    · obtain ⟨rfl, -⟩ := pair_ran.1 run
      exact sameLog_refcountIncr

theorem sameLog_unlinkStale (run : s.unlinkStale comm key = .ok s') : SameLog s s' := by
  unfold Store.unlinkStale at run
  split_ifs at run
  · obtain ⟨⟨s₁, old⟩, get, run⟩ := bind_ran.1 run
    have looked := sameLog_doItemGet get
    cases old with
    | none =>
      obtain rfl := pure_ran.1 run
      exact looked
    | some id =>
      obtain ⟨s₂, unlink, remove⟩ := bind_ran.1 run
      exact looked.trans ((sameLog_doItemUnlink unlink).trans (sameLog_doItemRemove remove))
  · obtain rfl := pure_ran.1 run
    exact .refl s

theorem sameReach_doItemLink (run : s.doItemLink id = .ok s') : SameReach s.log s'.log := by
  obtain ⟨-, -, rfl⟩ := doItemLink_eq run
  exact ⟨rfl, rfl⟩

theorem sameReach_doItemReplace (run : s.doItemReplace id newId = .ok s') :
    SameReach s.log s'.log := by
  rw [Store.doItemReplace, check_bind_ran] at run
  obtain ⟨s₁, unlink, link⟩ := bind_ran.1 run.2
  exact (sameLog_doItemUnlink unlink).reach.trans (sameReach_doItemLink link)

theorem sameReach_storeLink {old : Option ℕ} (run : s.storeLink old id = .ok s') :
    SameReach s.log s'.log := by
  cases old with
  | none => exact sameReach_doItemLink run
  | some oldId => exact sameReach_doItemReplace run

theorem sameLog_removeOpt {it : Option ℕ} (run : s.removeOpt it = .ok s') : SameLog s s' := by
  cases it with
  | none =>
    obtain rfl := pure_ran.1 run
    exact .refl s
  | some id => exact sameLog_doItemRemove run

theorem sameReach_combine {m : Mem} {cas oldId it : ℕ} {result : StoreItemType} {new : Option ℕ}
    (run : Store.storeBranch.combine s comm id m cas oldId = .ok (s', result, new, it)) :
    SameReach s.log s'.log := by
  unfold Store.storeBranch.combine at run
  split_ifs at run
  · cases pure_ran.1 run
    exact .refl _
  · obtain ⟨⟨s₁, new', succeed⟩, alloc, run⟩ := bind_ran.1 run
    have first := (doItemAlloc_keeps alloc).1
    cases new' with
    | none =>
      cases pure_ran.1 run
      exact first
    | some newId =>
      obtain ⟨s₂, link, run⟩ := bind_ran.1 run
      have second := sameReach_storeLink link
      cases pure_ran.1 run
      exact first.trans ⟨second.freeing, second.limit⟩

theorem sameReach_storeBranch {old : Option ℕ} {it : ℕ} {result : StoreItemType} {new : Option ℕ}
    (off : s.settings.lruLogEnabled = false)
    (run : s.storeBranch comm id old = .ok (s', result, new, it)) : SameReach s.log s'.log := by
  obtain ⟨-, link⟩ | ⟨-, -, rfl | ⟨-, oldId, update⟩⟩ | ⟨oldId, -, -, run⟩ :=
    storeBranch_cases (fun _ => off) run
  · exact sameReach_storeLink link
  · exact .of_eq rfl
  · obtain ⟨-, rfl | ⟨-, rfl⟩⟩ := doItemUpdate_quiet off update <;> exact .of_eq rfl
  · exact sameReach_combine run

theorem sameReach_doStoreItem {result : StoreItemType} (off : s.settings.lruLogEnabled = false)
    (run : s.doStoreItem comm id = .ok (s', result)) : SameReach s.log s'.log := by
  obtain ⟨⟨s₁, old⟩, get, run⟩ := bind_ran.1 run
  obtain ⟨⟨s₂, outcome, new, it⟩, branch, run⟩ := bind_ran.1 run
  obtain ⟨s₃, removeOld, run⟩ := bind_ran.1 run
  obtain ⟨s₄, removeNew, run⟩ := bind_ran.1 run
  obtain ⟨rfl, rfl⟩ := pair_ran.1 run
  have first := sameLog_doItemGet get
  have second := sameReach_storeBranch (first.settings ▸ off) branch
  have third := (sameLog_removeOpt removeOld).trans (sameLog_removeOpt removeNew)
  have before := first.reach.trans (second.trans third.reach)
  split_ifs
  · exact ⟨before.freeing, before.limit⟩
  · exact before

theorem sameReach_completeNreadAscii {reply : Reply} (off : s.settings.lruLogEnabled = false)
    (run : s.completeNreadAscii comm id = .ok (s', reply)) : SameReach s.log s'.log := by
  obtain ⟨⟨s₁, answer⟩, block, run⟩ := bind_ran.1 run
  obtain ⟨s₂, remove, run⟩ := bind_ran.1 run
  obtain ⟨rfl, rfl⟩ := pair_ran.1 run
  have last := (sameLog_doItemRemove remove).reach
  unfold Store.storeBlock at block
  split_ifs at block
  · obtain ⟨⟨s₃, result⟩, store, block⟩ := bind_ran.1 block
    obtain ⟨rfl, rfl⟩ := pair_ran.1 block
    exact (sameReach_doStoreItem off store).trans last
  · obtain ⟨rfl, rfl⟩ := pair_ran.1 block
    exact ⟨last.freeing, last.limit⟩

theorem sameReach_processUpdateCommand {flags cas : ℕ} {exptime vlen : ℤ} {update : Update}
    (run : s.processUpdateCommand comm key flags exptime vlen cas = .ok (s', update)) :
    SameReach s.log s'.log := by
  unfold Store.processUpdateCommand at run
  split_ifs at run
  · cases pure_ran.1 run
    exact .refl _
  · cases pure_ran.1 run
    exact .refl _
  · obtain ⟨⟨s₁, it, succeed⟩, alloc, run⟩ := bind_ran.1 run
    have first := (doItemAlloc_keeps alloc).1
    cases it with
    | some id =>
      cases pure_ran.1 run
      exact ⟨first.freeing, first.limit⟩
    | none =>
      obtain ⟨s₂, stale, run⟩ := bind_ran.1 run
      have second := (sameLog_unlinkStale stale).reach
      cases pure_ran.1 run
      exact first.trans second

theorem sameReach_processDeleteCommand {reply : Reply}
    (run : s.processDeleteCommand key = .ok (s', reply)) : SameReach s.log s'.log := by
  unfold Store.processDeleteCommand at run
  split_ifs at run
  · cases pure_ran.1 run
    exact .refl _
  · obtain ⟨⟨s₁, it⟩, get, run⟩ := bind_ran.1 run
    have first := (sameLog_doItemGet get).reach
    cases it with
    | none =>
      cases pure_ran.1 run
      exact first
    | some id =>
      obtain ⟨⟨s₂, succeed⟩, log, run⟩ := bind_ran.1 run
      obtain ⟨⟨s₃, it, succeed'⟩, alloc, log⟩ := bind_ran.1 log
      have second := (doItemAlloc_keeps alloc).1
      cases pure_ran.1 log
      cases succeed with
      | false =>
        cases pure_ran.1 run
        exact first.trans second
      | true =>
        obtain ⟨s₄, unlink, run⟩ := bind_ran.1 run
        obtain ⟨s₅, cut, remove⟩ := bind_ran.1 unlink
        have third := (sameLog_doItemUnlink cut).trans (sameLog_doItemRemove remove)
        cases pure_ran.1 run
        exact first.trans (second.trans third.reach)

end Reach

/-! ## The sizes of the records -/

section Sizes

variable {s s₁ s' : Store} {lay lay' : Layout} {v : View} {r q : Rec} {key : Key} {comm : NreadComm}
  {id M flags : ℕ}

def Rec.size (r : Rec) : ℕ :=
  sizeofItemData + r.key.length + 1 + r.suffix.length + r.data.length + ntotalCasRoom r.flags

theorem Whole.rec_size {m : Mem} {b : Block} (h : Whole m b) : (recOf m b).size = b.size := by
  rw [h.size_eq]
  simp only [Rec.size, recOf, keyOf, suffixOf, dataOf, length_slice]

theorem Rec.size_eq (room : ntotalCasRoom r.flags = 8) (short : r.key.length ≤ 250)
    (word : flags < 2 ^ 32) (suffix : r.suffix = suffixText flags r.data.length)
    (bounded : r.data.length < 2 ^ 31) :
    r.size = allocTotal true r.key.length flags r.data.length := by
  have cas : casRoom (casFlag true) = 8 := by decide
  rw [allocTotal_eq true short word (Int.natCast_nonneg _) (by exact_mod_cast bounded), Rec.size,
    suffix, room, cas, Int.toNat_natCast]

/-- No record of the log is longer than `M`. -/
def Store.RecordsWithin (s : Store) (M : ℕ) : Prop := ∀ b ∈ s.log.records, b.size ≤ M

/-- No record of the view is longer than `M`. -/
def View.Within (v : View) (M : ℕ) : Prop := ∀ r ∈ v.recs, r.size ≤ M

theorem StoreInv.within_iff (h : StoreInv s lay) : s.RecordsWithin M ↔ (s.view lay).Within M := by
  rw [Store.RecordsWithin, h.log.records_eq]
  constructor
  · intro within r mem
    obtain ⟨b, hb, rfl⟩ := SweepInv.mem_journal.1 mem
    rw [(h.wholeRec hb).rec_size]
    exact within b hb
  · intro within b hb
    rw [← (h.wholeRec hb).rec_size]
    exact within _ (SweepInv.mem_journal.2 ⟨b, hb, rfl⟩)

theorem View.Within.log (h : v.Within M) (small : r.size ≤ M) : (v.log r).Within M := by
  intro q mem
  rcases View.mem_log mem with old | rfl
  · exact h q old
  · exact small

theorem View.Within.put (h : v.Within M) (small : r.size ≤ M) : (v.put r).Within M := by
  intro q mem
  obtain ⟨p, member, rfl⟩ := List.mem_map.1 mem
  split_ifs
  · exact small
  · exact h p member

theorem StoreInv.within_alloc {exptime : ℕ} {nbytes : ℤ} {it : Option ℕ} {succeed : Bool}
    (h : StoreInv s lay) (ok : AllocOk s key flags nbytes) (within : s.RecordsWithin M)
    (small : allocTotal true key.length flags nbytes ≤ M)
    (run : s.doItemAlloc key flags exptime nbytes = .ok (s', it, succeed)) : s'.RecordsWithin M := by
  obtain ⟨lay', inv, -, -, -, allocates⟩ := h.doItemAlloc ok run
  rw [Store.RecordsWithin, h.log.records_eq] at within
  rw [Store.RecordsWithin, inv.log.records_eq]
  have grown {o : ℕ} (live : lay'.live = lay.live ++ [⟨o, allocTotal true key.length flags nbytes⟩])
      (b : Block) (hb : b ∈ lay'.live) : b.size ≤ M := by
    rw [live, List.mem_append, List.mem_singleton] at hb
    rcases hb with old | rfl
    · exact within b old
    · exact small
  cases allocates with
  | failed live shape => exact live ▸ within
  | tombstone o marked live shape written => exact grown live
  | item id o rest plain live free shape written => exact grown live

theorem StoreInv.within_update {cas : ℕ} {exptime vlen : ℤ} {update : Update} (h : StoreInv s lay)
    (word : flags < 2 ^ 32) (room : ∀ n, updateRequest key flags vlen = some n → RoomFor s n)
    (small : ∀ n, updateRequest key flags vlen = some n → n ≤ M) (within : s.RecordsWithin M)
    (run : s.processUpdateCommand comm key flags exptime vlen cas = .ok (s', update)) :
    s'.RecordsWithin M := by
  cases update with
  | upload id =>
    obtain ⟨lay', opens⟩ := h.processUpdateCommand word room run
    cases opens with
    | upload _ r plain fresh alone new hkey short value suffix length out =>
      have inv : StoreInv s' lay' := out.inv
      rw [inv.within_iff, out.view]
      refine (h.within_iff.1 within).log ?_
      subst hkey
      have rooms : ntotalCasRoom r.flags = 8 := by rw [fresh.flags]; decide
      rw [Rec.size_eq rooms short word suffix ((inv.length_lt fresh.mem).trans (by norm_num)), length]
      refine small _ (if_neg ?_)
      have bound := inv.length_lt fresh.mem
      rw [keyMaxLength]
      omega
  | reply reply =>
    unfold Store.processUpdateCommand at run
    split_ifs at run with long range
    · cases pure_ran.1 run
      exact within
    · cases pure_ran.1 run
      exact within
    · obtain ⟨⟨s₁, it, succeed⟩, alloc, run⟩ := bind_ran.1 run
      have request : updateRequest key flags vlen = some _ := if_neg (not_or.2 ⟨long, range⟩)
      have ok : AllocOk s key flags (vlen + 2) :=
        ⟨not_lt.1 long, word, by omega, by omega, (room _ request).size, (room _ request).wrap⟩
      cases it with
      | some id => cases pure_ran.1 run
      | none =>
        obtain ⟨s₂, stale, run⟩ := bind_ran.1 run
        have same : s₂.log = s₁.log := (sameLog_unlinkStale stale).log
        cases pure_ran.1 run
        rw [Store.RecordsWithin, same]
        exact h.within_alloc ok within (small _ request) alloc

theorem length_combined {old new : List UInt8} (two : 2 ≤ old.length) (two' : 2 ≤ new.length) :
    (comm.combined old new).length + 2 = old.length + new.length := by
  unfold NreadComm.combined joinBlocks
  split_ifs
  · rw [List.length_append, List.length_take]
    omega
  · rw [List.length_append, List.length_take]
    omega

/-- The record that `append` and `prepend` link has both data blocks. -/
theorem Fresh.joined_data {oldId : ℕ} (fresh : Fresh s lay id r) (h : StoreInv s lay)
    (sound : (s.view lay).Sound) (alone : (s.metas id).refcount = 1) (ok : s.JoinOk comm id r)
    (off : s.settings.lruLogEnabled = false) (joins : comm = .append ∨ comm = .prepend)
    (found : s.find r.key = some oldId) (ends : s.dataBlockEnds id = true)
    (run : s.completeNreadAscii comm id = .ok (s', StoreItemType.stored.reply))
    (mem : q ∈ s'.journal lay') (linked : s'.lookup r.key = some q.off) :
    q.data = comm.combined (s.recAt oldId).data r.data := by
  obtain ⟨k, table, item⟩ := Option.map_eq_some_iff.1 linked
  have mine : (s'.entryOf k).data = q.data := (entryOf_rec mem item.symm).1
  have entry : s'.contents.entries r.key = some (s'.entryOf k) := by
    change (s'.assocFind r.key).map s'.entryOf = _
    rw [table]
    rfl
  have sent : (s.entryOf id).data = r.data := (entryOf_rec fresh.mem fresh.off).1
  rcases fresh.contents_complete h sound alone ok off run with ⟨-, result, same, eq⟩ | ⟨bad, -, -⟩
  · obtain rfl : result = .stored := by cases result <;> first | rfl | cases same
    rw [Contents.store_some (visible_of_find found)] at eq
    have linked : s.contents.combine comm r.key (s.entryOf oldId) (s.entryOf id) (s.joinServed id) =
        (s'.contents, .stored) := by
      rcases joins with rfl | rfl <;> exact eq.symm
    unfold Contents.combine at linked
    split_ifs at linked with mismatch served
    · cases (Prod.mk.inj linked).2
    · obtain ⟨contents, -⟩ := Prod.mk.inj linked
      have linked : s'.contents.entries r.key = some (s.contents.stamp { s.entryOf oldId with
          data := comm.combined (s.entryOf oldId).data (s.entryOf id).data }) := by
        rw [← contents]
        simp only [Contents.link, Function.update_self]
      rw [entry, Option.some.injEq] at linked
      have data := congrArg Content.data linked
      rw [mine] at data
      exact data.trans (congrArg (comm.combined (s.recAt oldId).data) sent)
    · cases (Prod.mk.inj linked).2
  · rw [ends] at bad
    cases bad

/-- A completed block adds at most the record that `append` and `prepend` ask for. -/
theorem Received.within (h : Received s s₁ lay lay' id key flags r)
    (off : s.settings.lruLogEnabled = false)
    (second : comm = .append ∨ comm = .prepend → ∀ oldId, s₁.find key = some oldId →
      RoomFor s₁ (s₁.joinSize id oldId) ∧ s₁.joinSize id oldId ≤ M)
    {reply : Reply} (within : s₁.RecordsWithin M)
    (run : s₁.completeNreadAscii comm id = .ok (s', reply)) : s'.RecordsWithin M := by
  have dirty : r.flags = dirtyFlags := h.fresh.flags
  have proper := h.fresh.proper h.sound
  have join : s₁.JoinOk comm id r := h.fresh.joinOk h.inv h.sound
    (by rw [h.hkey]; exact fun joins oldId found => (second joins oldId found).1)
  have quiet : s₁.settings.lruLogEnabled = false := by rw [h.setup.settings, off]
  have within := h.inv.within_iff.1 within
  -- other flags leave the size as it is
  have marked {f : UInt8} (room : ntotalCasRoom f = 8) : ({ r with flags := f } : Rec).size ≤ M := by
    have size := within r h.fresh.mem
    rw [Rec.size, dirty, show ntotalCasRoom dirtyFlags = 8 by decide] at size
    rw [Rec.size, room]
    exact size
  obtain ⟨lay₂, ⟨ends, result, rfl, stores⟩ | ⟨-, rfl, out⟩⟩ := h.fresh.completeNreadAscii h.inv
    h.alone (h.fresh.apart h.inv h.sound) proper.short join (fun _ _ _ => quiet) run
  · cases stores with
    | stored accepts out =>
      rw [StoreInv.within_iff out.inv, out.view]
      exact within.put (marked (by decide))
    | refused _ rejects failed out =>
      rw [StoreInv.within_iff out.inv, out.view]
      split_ifs
      · exact within
      · exact within
    | tombstone oldId q found joins marked hkey hflags new out =>
      obtain ⟨f, holds⟩ := h.inv.holds h.sound found
      rw [holds.client, holds.plain] at marked
      cases marked
    | combined oldId q found joins hkey hflags new suffix two out =>
      rw [StoreInv.within_iff out.inv, out.view]
      refine View.Within.log within ?_
      have mem : q ∈ s'.journal lay₂ := by
        rw [journal_of_view out.view]
        exact List.mem_append_right _ (List.mem_singleton_self q)
      have linked : s'.lookup r.key = some q.off := by
        have table : (s'.view lay₂).table r.key = some q.off := by
          rw [out.view]
          exact Function.update_self ..
        exact table
      have data := h.fresh.joined_data h.inv h.sound h.alone join quiet joins found ends run mem linked
      obtain ⟨-, two', -⟩ := join joins oldId found
      have length : q.data.length + 2 = (s₁.recAt oldId).data.length + r.data.length := by
        rw [data]
        exact length_combined two' proper.two
      obtain ⟨room, small⟩ := second joins oldId (h.hkey ▸ found)
      obtain ⟨member, hkey'⟩ := assocFind_linked (find_eq_some.1 found).1
      obtain ⟨-, sum⟩ := h.fresh.allocOk_join h.inv member hkey' proper.short proper.two room
      have bytes : s₁.joinBytes id oldId = q.data.length := by omega
      have rooms : ntotalCasRoom q.flags = 8 := by rw [hflags]; decide
      have short : q.key.length ≤ 250 := by rw [hkey]; exact proper.short
      rw [Rec.size_eq rooms short (Nat.mod_lt _ (by norm_num)) suffix
        ((SweepInv.length_lt out.inv mem).trans (by norm_num)), hkey, ← bytes, ← h.fresh.keyAt]
      exact small
  · rw [StoreInv.within_iff out.inv, out.view]
    exact within.put (marked (by decide))

theorem StoreInv.within_congr (h : StoreInv s lay) (h' : StoreInv s' lay) :
    s'.RecordsWithin M ↔ s.RecordsWithin M := by
  rw [Store.RecordsWithin, Store.RecordsWithin, h.log.records_eq, h'.log.records_eq]

theorem StoreInv.within_delete {reply : Reply} (h : StoreInv s lay)
    (room : ∀ id, s.find key = some id → RoomFor s (deleteRequest key) ∧ deleteRequest key ≤ M)
    (within : s.RecordsWithin M) (run : s.processDeleteCommand key = .ok (s', reply)) :
    s'.RecordsWithin M := by
  unfold Store.processDeleteCommand at run
  split_ifs at run with long
  · cases pure_ran.1 run
    exact within
  · obtain ⟨⟨s₁, it⟩, get, run⟩ := bind_ran.1 run
    have looked := (sameLog_doItemGet get).log
    have within₁ : s₁.RecordsWithin M := by
      rw [Store.RecordsWithin, looked]
      exact within
    cases it with
    | none =>
      cases pure_ran.1 run
      exact within₁
    | some id =>
      obtain ⟨found, -, -, inv₁, -⟩ := h.get_some get
      obtain ⟨room, small⟩ := room id found
      obtain ⟨⟨s₂, succeed⟩, log, run⟩ := bind_ran.1 run
      obtain ⟨⟨s₃, it, succeed'⟩, alloc, log⟩ := bind_ran.1 log
      cases pure_ran.1 log
      have room := room.congr looked
      have ok : AllocOk s₁ key itemDeleted.toNat 0 :=
        ⟨not_lt.1 long, by decide, le_rfl, by norm_num, room.size, room.wrap⟩
      have within₂ := StoreInv.within_alloc inv₁ ok within₁ small alloc
      cases succeed with
      | false =>
        cases pure_ran.1 run
        exact within₂
      | true =>
        obtain ⟨s₄, unlink, run⟩ := bind_ran.1 run
        obtain ⟨s₅, cut, remove⟩ := bind_ran.1 unlink
        have same := ((sameLog_doItemUnlink cut).trans (sameLog_doItemRemove remove)).log
        cases pure_ran.1 run
        rw [Store.RecordsWithin, same]
        exact within₂

end Sizes

/-! ## The pace of the cleaner -/

section Pace

variable {l l' : Memlog} {s s' : Store} {lay : Layout} {b : Block} {n fuel p size : ℕ}

/-- The default of `item_size_max`. -/
def itemLimit : ℕ := 1024 * 1024

/-- Since it last stood at the beginning the cleaner has freed `k` chunks of an eighth of the log,
each with at most one record more. -/
def Memlog.Paced (l : Memlog) : Prop :=
  ∃ k ≤ 7, k * (l.memLimit / 8) ≤ l.memCurrentFreeing ∧
    l.memCurrentFreeing ≤ k * (l.memLimit / 8 + itemLimit)

theorem Memlog.Paced.congr (h : l.Paced) (same : SameReach l l') : l'.Paced := by
  rw [Memlog.Paced, same.freeing, same.limit]
  exact h

theorem Memlog.Paced.wrapOk (h : l.Paced) (inv : LogInv l lay 0)
    (limit : l.memLimit = memlogDefaultSize) (small : size ≤ itemLimit) : WrapOk l size := by
  intro near
  obtain ⟨k, le, -, high⟩ := h
  simp only [limit, memlogDefaultSize, itemLimit, Nat.reduceMul, Nat.reduceDiv, Nat.reduceAdd]
    at high small
  simp only [Memlog.nearEnd, limit, memlogDefaultSize, decide_eq_true_eq] at near
  cases lay with
  | flat live => exact FlatInv.unwrapped inv
  | wrapped tail old new =>
    have avail := WrappedInv.avail inv
    have near := near.trans_le (Nat.mod_le _ _)
    omega
  | ended new => exact absurd (EndedInv.swept inv) (by omega)

theorem log_memlogEvict (run : s.memlogEvict = .ok s') : s'.log = s.log := by
  unfold Store.memlogEvict at run
  dsimp only at run
  split_ifs at run
  · obtain rfl := pure_ran.1 run
    rfl
  · split at run
    · obtain rfl := pure_ran.1 run
      rfl
    · split_ifs at run
      · exact (sameLog_doItemUnlink run).log
      · obtain rfl := pure_ran.1 run
        rfl

theorem log_memlogFreeItem (run : s.memlogFreeItem = .ok (s', n)) : s.log.freeItem = (s'.log, n) := by
  obtain ⟨s₁, evict, run⟩ := bind_ran.1 run
  obtain ⟨rfl, rfl⟩ := pair_ran.1 run
  rw [log_memlogEvict evict]

theorem log_memlogFreeChunk (run : s.memlogFreeChunk fuel p = .ok (s', n)) :
    s.log.freeChunk fuel p = some (s'.log, n) := by
  induction fuel generalizing s p with
  | zero => cases run
  | succ fuel ih =>
    rw [Store.memlogFreeChunk] at run
    rw [Memlog.freeChunk]
    split_ifs at run ⊢
    · cases pure_ran.1 run
      rfl
    · obtain ⟨⟨s₁, k⟩, first, rest⟩ := bind_ran.1 run
      rw [log_memlogFreeItem first]
      exact ih rest
    · cases pure_ran.1 run
      rfl

/-- How far a chunk reaches: an eighth of the log and at most one record more, or the end of the
log. -/
structure ChunkEnds (l l' : Memlog) (M p q : ℕ) : Prop where
  limit : l'.memLimit = l.memLimit
  more : p ≤ q
  freeing : l'.memCurrentFreeing + p = l.memCurrentFreeing + q
  enough : l.memLimit / 8 ≤ q ∨ l.memLimit ≤ l'.memCurrentFreeing
  short : q = p ∨ q < l.memLimit / 8 + M ∨ l.memLimit ≤ l'.memCurrentFreeing

theorem LogInv.chunkEnds {M q : ℕ} (h : LogInv l lay p) (short : Short l) (small : l.memLimit < 2 ^ 32)
    (bounded : ∀ b ∈ lay.live, 16 * b.size ≤ l.memLimit) (within : ∀ b ∈ lay.live, b.size ≤ M)
    (run : l.freeChunk fuel p = some (l', q)) : ChunkEnds l l' M p q := by
  induction fuel generalizing l lay p with
  | zero => cases run
  | succ fuel ih =>
    have toFree : l.toFree = l.memLimit / 8 := Nat.mod_eq_of_lt (by omega)
    have here := h.swept_le.2
    rw [Memlog.freeChunk, toFree, Nat.mod_eq_of_lt (by omega)] at run
    split_ifs at run with more stop
    · cases run
      exact ⟨rfl, le_rfl, rfl, .inr stop, .inl rfl⟩
    · obtain ⟨lay₁, gone, inv, swept, positive, what⟩ :=
        h.freeItem short more (by omega) small bounded
      have limit := swept.cursors.limit
      have freeing := swept.freeing
      have total := inv.swept_le.1
      have rest (b : Block) (hb : b ∈ lay₁.live) : b ∈ lay.live := by
        rw [swept.live]
        exact List.mem_append_right _ hb
      have run : l.freeItem.1.freeChunk fuel ((p + l.freeItem.2) % 2 ^ 32) = some (l', q) := run
      rw [Nat.mod_eq_of_lt (by omega)] at run
      have ends := ih inv (short.congr swept.cursors) (by omega)
        (fun b hb => by rw [limit]; exact bounded b (rest b hb)) (fun b hb => within b (rest b hb)) run
      obtain ⟨limit', more', freeing', enough, short'⟩ := ends
      rw [limit] at limit' enough short'
      refine ⟨limit', by omega, by omega, enough, .inr ?_⟩
      rcases what with one | ⟨-, cycle⟩
      · have size : l.freeItem.2 ≤ M := within ⟨l.memCurrentFreeing, l.freeItem.2⟩ (by
          rw [swept.live, one]
          exact List.mem_append_left _ (List.mem_singleton_self _))
        omega
      · have size : l.freeItem.2 = l.memLimit - l.memCurrentFreeing := cycle.freeSize_eq
        omega
    · cases run
      exact ⟨rfl, le_rfl, rfl, .inl (not_lt.1 more), .inl rfl⟩

theorem settle_memCurrentFreeing : (l.settle n).memCurrentFreeing =
    if n ≠ 0 ∧ l.memLimit ≤ l.memCurrentFreeing then 0 else l.memCurrentFreeing := by
  rcases Nat.eq_zero_or_pos n with rfl | positive
  · rw [if_neg (by omega)]
    rfl
  · simp only [Memlog.settle, apply_ite Memlog.memCurrentFreeing, apply_ite Memlog.memLimit, ite_self,
      ge_iff_le, ne_eq, positive.ne', not_false_eq_true, true_and, if_false]

theorem Memlog.Paced.memlogClean (h : s.log.Paced) (inv : StoreInv s lay)
    (limit : s.log.memLimit = memlogDefaultSize) (within : s.RecordsWithin itemLimit)
    (guard : lruMaintainerGuard s.log = true) (run : s.memlogClean = .ok (s', n)) :
    s'.log.Paced := by
  obtain ⟨⟨s₁, q⟩, chunk, run⟩ := bind_ran.1 run
  obtain ⟨rfl, rfl⟩ := pair_ran.1 run
  rw [Store.RecordsWithin, inv.log.records_eq] at within
  have ends := inv.log.chunkEnds (inv.log.short inv.limit guard) inv.limit inv.bounded within
    (log_memlogFreeChunk chunk)
  obtain ⟨limit', more, freeing, enough, short⟩ := ends
  obtain ⟨k, le, low, high⟩ := h
  change (s₁.log.settle q).Paced
  rw [Memlog.Paced, settle_memLimit, settle_memCurrentFreeing, limit']
  rw [limit] at low high enough short ⊢
  generalize eighth : memlogDefaultSize / 8 = e at *
  have whole : memlogDefaultSize = 8 * e := by rw [← eighth]; rfl
  by_cases reset : q ≠ 0 ∧ memlogDefaultSize ≤ s₁.log.memCurrentFreeing
  · rw [if_pos reset]
    exact ⟨0, by omega, by omega, by omega⟩
  · rw [if_neg reset]
    rcases Nat.eq_zero_or_pos q with rfl | positive
    · exact ⟨k, le, by omega, by omega⟩
    · have next : (k + 1) * e = k * e + e := Nat.succ_mul k e
      have next' : (k + 1) * (e + itemLimit) = k * (e + itemLimit) + (e + itemLimit) := Nat.succ_mul ..
      refine ⟨k + 1, ?_, by omega, by omega⟩
      by_contra beyond
      obtain rfl : k = 7 := by omega
      omega

end Pace

/-! ## The loop of `memlog_free_chunk` -/

/-- One turn of the loop after `freed` bytes. -/
structure ChunkTurn (s s' : Store) (freed n : ℕ) : Prop where
  more : freed < s.log.toFree
  before : s.log.memCurrentFreeing % 2 ^ 32 < s.log.memLimit
  frees : s.memlogFreeItem = .ok (s', n)

/-- The states in which the loop, entered from `s`, tests its condition. -/
inductive Sweeping (s : Store) : Store → ℕ → Prop
  | enter : Sweeping s s 0
  | turn {s₁ s₂ : Store} {freed n : ℕ} (before : Sweeping s s₁ freed)
      (turn : ChunkTurn s₁ s₂ freed n) : Sweeping s s₂ ((freed + n) % 2 ^ 32)

/-- Every turn moves the cursor forward and not beyond the log, and the cleaner does not spin. -/
structure CleanerEnds (s : Store) : Prop where
  advances : ∀ s₁ s₂ freed n, Sweeping s s₁ freed → ChunkTurn s₁ s₂ freed n →
    s₁.log.memCurrentFreeing + 1 ≤ s₂.log.memCurrentFreeing ∧
      s₂.log.memCurrentFreeing ≤ s₂.log.memLimit
  ends : s.memlogClean ≠ .error .cleanerSpins

section Turns

variable {s s' s₁ : Store} {lay : Layout} {freed n p fuel id : ℕ}

theorem SweepInv.turn (h : SweepInv s lay p) (short : Short s.log) (turn : ChunkTurn s s' p n) :
    ∃ lay', SweepInv s' lay' (p + n) ∧ Short s'.log ∧ 0 < n ∧ (p + n) % 2 ^ 32 = p + n ∧
      s'.log.memCurrentFreeing = s.log.memCurrentFreeing + n ∧
      s'.log.memLimit = s.log.memLimit := by
  have limit := h.limit
  have here := h.log.swept_le.2
  have toFree := h.toFree
  have more := turn.more
  have before := turn.before
  rw [toFree] at more
  rw [Nat.mod_eq_of_lt (by omega)] at before
  obtain ⟨lay', gone, inv, swept, positive, -⟩ := h.memlogFreeItem short more before turn.frees
  have cursors := swept.log.cursors
  have total := inv.log.swept_le.1
  rw [cursors.limit] at total
  exact ⟨lay', inv, short.congr cursors, positive, Nat.mod_eq_of_lt (by omega), swept.log.freeing,
    cursors.limit⟩

theorem StoreInv.sweeping (h : StoreInv s lay) (guard : lruMaintainerGuard s.log = true)
    (sweeping : Sweeping s s₁ freed) : ∃ lay₁, SweepInv s₁ lay₁ freed ∧ Short s₁.log := by
  induction sweeping with
  | enter => exact ⟨lay, h, h.log.short h.limit guard⟩
  | turn _ turn ih =>
    obtain ⟨lay₁, inv, short⟩ := ih
    obtain ⟨lay₂, inv', short', -, same, -⟩ := inv.turn short turn
    exact ⟨lay₂, by rw [same]; exact inv', short'⟩

theorem doItemRemove_not_spins : s.doItemRemove id ≠ .error .cleanerSpins := by
  intro run
  obtain ⟨-, run⟩ := check_bind_aborted (by decide) run
  obtain ⟨-, run⟩ := check_bind_aborted (by decide) run
  dsimp only at run
  split_ifs at run
  · obtain ⟨-, run⟩ := check_bind_aborted (by decide) run
    obtain ⟨-, run⟩ := check_bind_aborted (by decide) run
    exact pure_not_aborted run
  · exact pure_not_aborted run

theorem memlogFreeItem_not_spins : s.memlogFreeItem ≠ .error .cleanerSpins := by
  intro run
  rcases bind_aborted.1 run with evict | ⟨s₁, -, run⟩
  · unfold Store.memlogEvict at evict
    dsimp only at evict
    split_ifs at evict
    · exact pure_not_aborted evict
    · split at evict
      · exact pure_not_aborted evict
      · unfold Store.doItemUnlink at evict
        split_ifs at evict
        · rcases bind_aborted.1 evict with delete | ⟨s₁, -, remove⟩
          · exact pure_not_aborted (check_bind_aborted (by decide) delete).2
          · exact doItemRemove_not_spins remove
        · exact pure_not_aborted evict
        · exact pure_not_aborted evict
  · exact pure_not_aborted run

theorem SweepInv.memlogFreeChunk_not_spins (h : SweepInv s lay p) (short : Short s.log)
    (turns : s.log.memLimit / 8 - p < fuel) : s.memlogFreeChunk fuel p ≠ .error .cleanerSpins := by
  induction fuel generalizing s lay p with
  | zero => omega
  | succ fuel ih =>
    intro run
    rw [Store.memlogFreeChunk] at run
    split_ifs at run with more stop
    · exact pure_not_aborted run
    · rcases bind_aborted.1 run with first | ⟨⟨s₁, n⟩, first, rest⟩
      · exact memlogFreeItem_not_spins first
      · obtain ⟨lay₁, inv, short₁, positive, same, -, limit⟩ :=
          h.turn short ⟨more, not_le.1 stop, first⟩
        have small := h.limit
        have toFree := h.toFree
        simp only [same] at rest
        exact ih inv short₁ (by omega) rest
    · exact pure_not_aborted run

theorem StoreInv.cleanerEnds (h : StoreInv s lay) (guard : lruMaintainerGuard s.log = true) :
    CleanerEnds s where
  advances := by
    intro s₁ s₂ freed n sweeping turn
    obtain ⟨lay₁, inv, short⟩ := h.sweeping guard sweeping
    obtain ⟨lay₂, inv', -, positive, -, freeing, -⟩ := inv.turn short turn
    exact ⟨by omega, inv'.log.swept_le.2⟩
  ends := by
    intro run
    rcases bind_aborted.1 run with chunk | ⟨r, -, rest⟩
    · have limit := h.limit
      have toFree := h.toFree
      exact h.memlogFreeChunk_not_spins (h.log.short h.limit guard) (by omega) chunk
    · exact pure_not_aborted rest

end Turns

/-! ## Runs of storage and deletion commands -/

/-- The commands that write to the log, the cleaner, and time. -/
def Command.isLogging : Command → Bool
  | .store .. => true
  | .delete .. => true
  | .clean => true
  | .tick _ => true
  | _ => false

/-- The record that `append` and `prepend` make has at most `M` bytes. -/
def Store.JoinWithin (s : Store) (M : ℕ) : Command → Prop
  | .store comm key flags exptime cas block =>
      comm = .append ∨ comm = .prepend → ∀ s₁ id oldId,
        s.processUpdateCommand comm key flags.toNat exptime (vlenOf block) cas.toNat =
          .ok (s₁, .upload id) →
        (s₁.receive id block).find key = some oldId →
        (s₁.receive id block).joinSize id oldId ≤ M
  | _ => True

/-- A command whose records have at most a megabyte, a cleaning under its guard, or a tick. -/
structure LoggingStep (s : Store) (cmd : Command) (s' : Store) : Prop where
  logging : cmd.isLogging = true
  first : ∀ n, s.request cmd = some n → n ≤ itemLimit
  second : s.JoinWithin itemLimit cmd
  ran : ∃ answer, s.exec cmd = .ok (s', answer)

structure OnPace (s : Store) : Prop where
  steady : ∃ lay, Steady s lay
  limit : s.log.memLimit = memlogDefaultSize
  within : s.RecordsWithin itemLimit
  paced : s.log.Paced

section Runs

variable {s s' : Store} {lay : Layout} {cmd : Command} {n : ℕ}

theorem Memlog.Paced.roomFor (h : s.log.Paced) (inv : StoreInv s lay)
    (limit : s.log.memLimit = memlogDefaultSize) (small : n ≤ itemLimit) : RoomFor s n := by
  refine ⟨?_, h.wrapOk inv.log limit small⟩
  rw [limit]
  simp only [itemLimit, memlogDefaultSize] at small ⊢
  omega

theorem OnPace.fits (h : OnPace s) (step : LoggingStep s cmd s') : s.Fits cmd := by
  obtain ⟨lay, steady⟩ := h.steady
  have first (n : ℕ) (request : s.request cmd = some n) : RoomFor s n :=
    h.paced.roomFor steady.inv h.limit (step.first n request)
  refine ⟨first, ?_⟩
  cases cmd with
  | store comm key flags exptime cas block =>
    intro joins s₁ id oldId header found
    obtain ⟨lay₁, opens⟩ := steady.inv.processUpdateCommand flags.toNat_lt first header
    obtain ⟨r, received⟩ := opens.received flags.toNat_lt steady.sound
    have reach := sameReach_processUpdateCommand header
    have reach : SameReach s.log (s₁.receive id block).log := ⟨reach.freeing, reach.limit⟩
    exact (h.paced.congr reach).roomFor received.inv (reach.limit.trans h.limit)
      (step.second joins s₁ id oldId header found)
  | _ => trivial

theorem OnPace.step (h : OnPace s) (step : LoggingStep s cmd s') : OnPace s' := by
  have fits := h.fits step
  obtain ⟨lay, steady⟩ := h.steady
  obtain ⟨answer, run⟩ := step.ran
  have still := steady.exec fits run
  cases cmd with
  | store comm key flags exptime cas block =>
    obtain ⟨⟨s₁, update⟩, header, run⟩ := bind_ran.1 run
    have word : flags.toNat < 2 ^ 32 := flags.toNat_lt
    have reach := sameReach_processUpdateCommand header
    have within := steady.inv.within_update word fits.first step.first h.within header
    cases update with
    | reply reply =>
      obtain ⟨rfl, -⟩ := pair_ran.1 run
      exact ⟨still, reach.limit.trans h.limit, within, h.paced.congr reach⟩
    | upload id =>
      obtain ⟨⟨s₂, reply⟩, complete, run⟩ := bind_ran.1 run
      obtain ⟨rfl, -⟩ := pair_ran.1 run
      obtain ⟨lay₁, opens⟩ := steady.inv.processUpdateCommand word fits.first header
      obtain ⟨r, received⟩ := opens.received word steady.sound
      have opened : StoreInv s₁ lay₁ := by
        cases opens with
        | upload _ r plain fresh alone new hkey short value suffix length out => exact out.inv
      have quiet : (s₁.receive id block).settings.lruLogEnabled = false := by
        rw [received.setup.settings, steady.off]
      have rest := sameReach_completeNreadAscii quiet complete
      have reach := reach.trans ⟨rest.freeing, rest.limit⟩
      have within := received.within steady.off
        (fun joins oldId found => ⟨fits.second joins s₁ id oldId header found,
          step.second joins s₁ id oldId header found⟩)
        ((opened.within_congr received.inv).2 within) complete
      exact ⟨still, reach.limit.trans h.limit, within, h.paced.congr reach⟩
  | delete key =>
    obtain ⟨⟨s₁, reply⟩, command, run⟩ := bind_ran.1 run
    obtain ⟨rfl, -⟩ := pair_ran.1 run
    have reach := sameReach_processDeleteCommand command
    have request (id : ℕ) (found : s.find key = some id) :
        s.request (.delete key) = some (deleteRequest key) := by
      rw [Store.request, found]
      rfl
    have within := steady.inv.within_delete
      (fun id found => ⟨fits.first _ (request id found), step.first _ (request id found)⟩) h.within
      command
    exact ⟨still, reach.limit.trans h.limit, within, h.paced.congr reach⟩
  | clean =>
    obtain ⟨s₁, command, run⟩ := bind_ran.1 run
    obtain ⟨rfl, -⟩ := pair_ran.1 run
    obtain ⟨guard, n, clean⟩ | rfl := lruMaintainerFree_ran command
    · obtain ⟨lay', gone, inv, cleans⟩ := steady.inv.memlogClean guard clean
      refine ⟨still, cleans.limit.trans h.limit, ?_,
        h.paced.memlogClean steady.inv h.limit h.within guard clean⟩
      have within := h.within
      rw [Store.RecordsWithin, steady.inv.log.records_eq, cleans.live] at within
      rw [Store.RecordsWithin, inv.log.records_eq]
      exact fun b hb => within b (List.mem_append_right _ hb)
    · exact h
  | tick n =>
    obtain ⟨rfl, -⟩ := pair_ran.1 run
    exact ⟨still, h.limit, h.within, h.paced⟩
  | _ => cases step.logging

theorem onPace_init {settings : Settings} {now : ℕ} (cas : settings.useCas = true)
    (off : settings.lruLogEnabled = false) : OnPace (.init settings memlogDefaultSize now) := by
  have inv : StoreInv (.init settings memlogDefaultSize now) (.flat []) :=
    Store.init_inv (by decide) (by decide) cas
  refine ⟨⟨_, inv, .init, off⟩, rfl, ?_, 0, by omega, by rw [Nat.zero_mul]; exact Nat.zero_le _,
    Nat.zero_le _⟩
  rw [inv.within_iff]
  exact fun r mem => absurd mem (List.not_mem_nil)

end Runs

/-! ## Filling the log -/

/-- A log that has been filled up to `c` and never cleaned. -/
structure FilledTo (s : Store) (c : ℕ) : Prop where
  limit : s.log.memLimit = memlogDefaultSize
  current : s.log.memCurrent = c
  avail : s.log.memAvail + c = memlogDefaultSize
  beginning : s.log.memFreeFromBeginning = 0
  freeing : s.log.memCurrentFreeing = 0
  zero : ∀ x, c ≤ x → s.log.mem x = 0

/-- A `replace` whose client flags have the `ITEM_DELETED` bit: its header line leaves a tombstone
and no item. -/
def markedReplace (key : Key) (block : List UInt8) : Command := .store .replace key 128 0 0 block

section Fill

variable {s s' : Store} {c k : ℕ} {key : Key} {block : List UInt8}

theorem filledTo_init (settings : Settings) (now : ℕ) :
    FilledTo (.init settings memlogDefaultSize now) 0 :=
  ⟨rfl, rfl, Nat.add_zero _, rfl, rfl, fun _ _ => rfl⟩

theorem FilledTo.mark (h : FilledTo s c) (short : key.length ≤ 250) (two : 2 ≤ block.length)
    (bounded : block.length < 2 ^ 31 - 2)
    (room : c + allocTotal s.settings.useCas key.length 128 block.length + 35 ≤ memlogDefaultSize)
    (small : allocTotal true key.length 128 block.length ≤ itemLimit) :
    ∃ s', LoggingStep s (markedReplace key block) s' ∧
      FilledTo s' (c + allocTotal s.settings.useCas key.length 128 block.length) ∧
      s'.settings = s.settings ∧ s'.table = s.table ∧
      s'.log.mem = writeTombstone s.log.mem c key 128 block.length := by
  have total := allocTotal_eq s.settings.useCas short (by norm_num : 128 < 2 ^ 32)
    (Int.natCast_nonneg block.length) (by omega)
  have vlen : vlenOf block + 2 = block.length := Int.sub_add_cancel ..
  have inside : ¬(key.length > keyMaxLength) ∧ ¬(vlenOf block < 0 ∨ vlenOf block > 2 ^ 31 - 1 - 2) := by
    rw [keyMaxLength]
    omega
  set n := allocTotal s.settings.useCas key.length 128 block.length
  obtain ⟨limit, current, avail, beginning, freeing, zero⟩ := h
  have far : s.log.nearEnd n = false := by
    simp only [Memlog.nearEnd, current, limit, decide_eq_false_iff_not, not_lt]
    exact (Nat.mod_le _ _).trans (by omega)
  have served : memlogAllocRetry 3 s.log n =
      ({ s.log with memCurrent := c + n, memAvail := s.log.memAvail - n }, some c) := by
    rw [memlogAllocRetry, memoryAllocate, Memlog.turn, far, if_neg Bool.false_ne_true,
      if_neg (by omega), current]
  set marked : Store := { s with log := { s.log with
    mem := writeTombstone s.log.mem c key 128 block.length
    memCurrent := c + n
    memAvail := s.log.memAvail - n } }
  have alloc (exptime : ℕ) : s.doItemAlloc key 128 exptime block.length =
      .ok (marked, none, true) := by
    rw [Store.doItemAlloc, served]
    rfl
  refine ⟨marked, ⟨rfl, ?_, fun joins => absurd joins (by decide), ?_⟩,
    ⟨limit, rfl, ?_, beginning, freeing, ?_⟩, rfl, rfl, rfl⟩
  · intro m request
    have request : updateRequest key 128 (vlenOf block) = some m := request
    rw [updateRequest, if_neg (not_or.2 inside), vlen] at request
    exact Option.some.inj request ▸ small
  · have header : s.processUpdateCommand .replace key 128 0 (vlenOf block) 0 =
        .ok (marked, .reply (if marked.itemSizeOk key.length 128 block.length then
          .noMemoryStoring else .tooLarge)) := by
      rw [Store.processUpdateCommand, if_neg inside.1, if_neg inside.2, vlen, alloc]
      rfl
    exact ⟨_, (congrArg (· >>= _) header).trans (ok_bind _ _)⟩
  · change s.log.memAvail - n + (c + n) = _
    omega
  · intro x above
    have empty : flagsOf s.log.mem c = 0 := zero _ (by omega)
    have outside : writeTombstone s.log.mem c key 128 block.length x = s.log.mem x :=
      writeTombstone_outside empty short (.inr (by unfold sizeofItemData at total; omega))
    exact outside.trans (zero x (by omega))

theorem FilledTo.fill (h : FilledTo s c) (short : key.length ≤ 250) (two : 2 ≤ block.length)
    (bounded : block.length < 2 ^ 31 - 2)
    (small : allocTotal true key.length 128 block.length ≤ itemLimit)
    (room : c + k * allocTotal s.settings.useCas key.length 128 block.length + 35 ≤
      memlogDefaultSize) :
    ∃ s', Run LoggingStep s (List.replicate k (markedReplace key block)) s' ∧
      FilledTo s' (c + k * allocTotal s.settings.useCas key.length 128 block.length) ∧
      s'.table = s.table ∧ ∀ x < c, s'.log.mem x = s.log.mem x := by
  induction k generalizing s c with
  | zero => exact ⟨s, .nil s, by simpa using h, rfl, fun _ _ => rfl⟩
  | succ k ih =>
    rw [Nat.succ_mul] at room
    obtain ⟨s₁, step, filled, settings, table, mem⟩ := h.mark short two bounded (by omega) small
    obtain ⟨s', run, filled', table', mem'⟩ := ih filled (by rw [settings]; omega)
    refine ⟨s', .cons step run, ?_, table'.trans table, fun x below => ?_⟩
    · rw [settings] at filled'
      rw [Nat.succ_mul, Nat.add_comm (k * _), ← Nat.add_assoc]
      exact filled'
    · rw [mem' x (by omega), mem]
      exact writeTombstone_outside (h.zero _ (by omega)) short (.inl below)

theorem FilledTo.guard (h : FilledTo s c) (full : 3 * memlogDefaultSize ≤ 4 * c) :
    lruMaintainerGuard s.log = true := by
  have avail := h.avail
  simp only [memlogDefaultSize] at avail full
  simp only [lruMaintainerGuard, h.limit, h.beginning, memlogDefaultSize, Bool.and_eq_true,
    decide_eq_true_eq]
  omega

end Fill

def millionBytes : List UInt8 := List.replicate 1000000 0

def fillTrace : List Command := List.replicate 806 (markedReplace [98] millionBytes)

theorem FilledTo.fillTrace {s : Store} {c : ℕ} (h : FilledTo s c) (early : c ≤ 100) :
    ∃ s', Run LoggingStep s fillTrace s' ∧ lruMaintainerGuard s'.log = true ∧
      (∃ c', FilledTo s' c') ∧ s'.table = s.table ∧ ∀ x < c, s'.log.mem x = s.log.mem x := by
  have length : millionBytes.length = 1000000 := List.length_replicate
  have size (useCas : Bool) : allocTotal useCas [(98 : UInt8)].length 128 millionBytes.length =
      if useCas then 1000039 else 1000031 := by
    rw [length]
    cases useCas <;> decide +kernel
  have bounds (useCas : Bool) : 1000031 ≤ (if useCas then 1000039 else 1000031) ∧
      (if useCas then 1000039 else 1000031) ≤ 1000039 := by
    cases useCas <;> decide
  have bound := bounds s.settings.useCas
  rw [← size] at bound
  have two : 2 ≤ millionBytes.length := by rw [length]; decide
  have bounded : millionBytes.length < 2 ^ 31 - 2 := by rw [length]; decide
  obtain ⟨s', run, filled, table, mem⟩ := h.fill (k := 806) (by decide : [(98 : UInt8)].length ≤ 250)
    two bounded (by rw [size]; decide) (by rw [memlogDefaultSize]; omega)
  exact ⟨s', run, filled.guard (by rw [memlogDefaultSize]; omega), ⟨_, filled⟩, table, mem⟩

/-- With CAS ids and without `lru_log` the cleaner ends whenever it is called. -/
theorem cleaner_ends {settings : Settings} {now : ℕ} {cmds : List Command} {s : Store}
    (cas : settings.useCas = true) (off : settings.lruLogEnabled = false)
    (run : Run LoggingStep (.init settings memlogDefaultSize now) cmds s)
    (guard : lruMaintainerGuard s.log = true) : CleanerEnds s := by
  have pace : OnPace s := run.invariant OnPace (fun _ _ _ h step => h.step step) (onPace_init cas off)
  obtain ⟨lay, steady⟩ := pace.steady
  exact steady.inv.cleanerEnds guard

theorem cleaner_ends_filled :
    ∃ s, Run LoggingStep (.init (settingsInit 1500000000) memlogDefaultSize 62) fillTrace s ∧
      lruMaintainerGuard s.log = true ∧ CleanerEnds s := by
  obtain ⟨s, run, guard, -⟩ :=
    (filledTo_init (settingsInit 1500000000) 62).fillTrace (Nat.zero_le _)
  exact ⟨s, run, guard, cleaner_ends rfl rfl run guard⟩

theorem memlogFreeChunk_spins {s : Store} {freed : ℕ} (more : freed < s.log.toFree)
    (before : s.log.memCurrentFreeing % 2 ^ 32 < s.log.memLimit)
    (frees : s.memlogFreeItem = .ok (s, 0)) (fuel : ℕ) :
    s.memlogFreeChunk fuel freed = .error .cleanerSpins := by
  induction fuel with
  | zero => rfl
  | succ fuel ih =>
    have small : s.log.toFree < 2 ^ 32 := Nat.mod_lt _ (by norm_num)
    rw [Store.memlogFreeChunk, if_pos more, if_neg (not_le.2 before), frees, ok_bind]
    dsimp only
    rw [Nat.add_zero, Nat.mod_eq_of_lt (by omega), ih]

theorem memlogFreeItem_marked {s : Store}
    (marked : (has (flagsOf s.log.mem s.log.memCurrentFreeing) itemCorrupted ||
      has (flagsOf s.log.mem s.log.memCurrentFreeing) itemDeleted ||
      has (flagsOf s.log.mem s.log.memCurrentFreeing) itemCycle) = true) :
    s.memlogFreeItem = .ok ({ s with log := s.log.freeItem.1 }, s.log.freeItem.2) := by
  rw [Store.memlogFreeItem, Store.memlogEvict, if_pos marked]
  rfl

/-- The memory after the first two commands of `spinTrace`. -/
def spinMem : Mem := writeTombstone (writeTombstone (fun _ => 0) 0 [97] 128 2) 28 [97, 48] 128 2

/-- Two tombstones, whose sizes the cleaner reads with eight bytes too many when there are no CAS
ids, so that it takes the second byte of the second key for flags. -/
def spinTrace : List Command :=
  markedReplace [97] [13, 10] :: markedReplace [97, 48] [13, 10] :: fillTrace

/-- The cleaner steps over the first tombstone and eight bytes of the second record, and then
reads a cycle record of length zero. -/
theorem FilledTo.spins {s : Store} {c : ℕ} (h : FilledTo s c)
    (same : ∀ x < 57, s.log.mem x = spinMem x) : s.memlogClean = .error .cleanerSpins := by
  have toFree : s.log.toFree = 2 ^ 27 := by rw [Memlog.toFree, h.limit]; decide
  have first : Agree s.log.mem spinMem 0 16 := fun x _ hx => same x (by omega)
  have size : freeSize s.log.mem s.log.memCurrentFreeing = 36 := by
    rw [h.freeing, freeSize_congr first]
    decide +kernel
  set t : Store := { s with log := s.log.swept 36 }
  have frees : s.memlogFreeItem = .ok (t, 36) := by
    rw [memlogFreeItem_marked]
    · rw [freeItem_eq size]
    · rw [h.freeing, flagsOf_congr first]
      decide +kernel
  have limit : t.log.memLimit = memlogDefaultSize := h.limit
  have freeing : t.log.memCurrentFreeing = 36 := by
    change s.log.memCurrentFreeing + 36 = 36
    rw [h.freeing]
  have second : Agree t.log.mem spinMem 36 52 := fun x hl hx => by
    change ByteMem.fill s.log.mem s.log.memCurrentFreeing 36 0 x = _
    rw [h.freeing, fill_outside (by omega)]
    exact same x (by omega)
  have size' : freeSize t.log.mem t.log.memCurrentFreeing = 0 := by
    rw [freeing, freeSize_congr second]
    decide +kernel
  have stuck : t.memlogFreeItem = .ok (t, 0) := by
    rw [memlogFreeItem_marked]
    · rw [freeItem_eq size', swept_zero]
    · rw [freeing, flagsOf_congr second]
      decide +kernel
  have turns : t.memlogFreeChunk (2 ^ 27) 36 = .error .cleanerSpins :=
    memlogFreeChunk_spins (by change 36 < s.log.toFree; rw [toFree]; norm_num)
      (by rw [freeing, limit]; decide) stuck _
  rw [Store.memlogClean, toFree, Store.memlogFreeChunk, if_pos (by rw [toFree]; norm_num),
    if_neg (by rw [h.freeing, h.limit]; decide), frees]
  exact congrArg (· >>= _) turns

theorem cleaner_spins :
    ∃ s, Run LoggingStep
        (.init { settingsInit 1500000000 with useCas := false } memlogDefaultSize 62) spinTrace s ∧
      lruMaintainerGuard s.log = true ∧ s.memlogClean = .error .cleanerSpins ∧ ¬CleanerEnds s := by
  obtain ⟨s₁, step₁, filled₁, settings₁, -, mem₁⟩ :=
    (filledTo_init { settingsInit 1500000000 with useCas := false } 62).mark
      (by decide : [(97 : UInt8)].length ≤ 250) (by decide : 2 ≤ [(13 : UInt8), 10].length)
      (by decide) (by decide +kernel) (by decide +kernel)
  have size₁ : 0 + allocTotal false [(97 : UInt8)].length 128 [(13 : UInt8), 10].length = 28 := by
    decide +kernel
  have filled₁ : FilledTo s₁ 28 := size₁ ▸ filled₁
  obtain ⟨s₂, step₂, filled₂, -, -, mem₂⟩ := filled₁.mark
    (by decide : [(97 : UInt8), 48].length ≤ 250) (by decide : 2 ≤ [(13 : UInt8), 10].length)
    (by decide) (by rw [settings₁]; decide +kernel) (by decide +kernel)
  have size₂ : 28 + allocTotal false [(97 : UInt8), 48].length 128 [(13 : UInt8), 10].length = 57 := by
    decide +kernel
  have filled₂ : FilledTo s₂ 57 := by
    rw [settings₁] at filled₂
    exact size₂ ▸ filled₂
  obtain ⟨s, run, guard, ⟨c, filled⟩, -, mem⟩ := filled₂.fillTrace (by decide)
  have same (x : ℕ) (below : x < 57) : s.log.mem x = spinMem x := by
    rw [mem x below, mem₂, mem₁]
    rfl
  have spins := filled.spins same
  exact ⟨s, .cons step₁ (.cons step₂ run), guard, spins, fun h => h.ends spins⟩

end LogMemcached
