import LogMemcached.Lib.Run
import LogMemcached.SequenceSteps

/-!
# Client flags

The client flags of an item are kept as decimal text in the suffix of its record.  `touch`, `incr`,
`decr`, `append` and `prepend` read them back and write them again.  As long as no storage command
brings flags with the `ITEM_DELETED` bit, they are what the last storage command gave, no command but
`delete` leaves a tombstone, and the answer to a storage command does not depend on them.
-/

namespace LogMemcached

open ByteMem CText Tiling Fallible Transition Journal Store

variable {s s₁ s' : Store} {lay lay' : Layout} {key : Key} {id flags : ℕ} {comm : NreadComm}
  {block : List UInt8} {v v' : View} {settings : Settings} {r : Rec}

/-! ## The answer to a storage command -/

/-- The result of a storage command other than `append` and `prepend`, by what its lookup found. -/
def Store.ruling (s : Store) (comm : NreadComm) (cas : ℕ) : Option ℕ → StoreItemType
  | none =>
      match comm with
      | .replace => .notStored
      | .cas => .notFound
      | _ => .stored
  | some oldId =>
      match comm with
      | .add => .notStored
      | .cas => if cas = itemGetCas s.log.mem (s.itemOf oldId) then .stored else .exists
      | _ => .stored

theorem storeBranch_ruling {old new : Option ℕ} {result : StoreItemType} {it : ℕ}
    (first : comm ≠ .append ∧ comm ≠ .prepend) (off : s.settings.lruLogEnabled = false)
    (run : s.storeBranch comm id old = .ok (s', result, new, it)) :
    result = s.ruling comm (itemGetCas s.log.mem (s.itemOf id)) old := by
  have linked {t : Except Abort Store}
      (run : (do let s ← t; pure (s, .stored, none, id)) = Except.ok (s', result, new, it)) :
      result = .stored := by
    obtain ⟨_, -, run⟩ := bind_ran.1 run
    have := pure_ran.1 run
    simp only [Prod.mk.injEq] at this
    exact this.2.1.symm
  have kept {result' : StoreItemType}
      (run : (pure (s, result', none, id) : Except Abort _) = .ok (s', result, new, it)) :
      result = result' := by
    have := pure_ran.1 run
    simp only [Prod.mk.injEq] at this
    exact this.2.1.symm
  cases old with
  | none =>
    cases comm with
    | add => exact linked run
    | set => exact linked run
    | replace => exact kept run
    | append => exact absurd rfl first.1
    | prepend => exact absurd rfl first.2
    | cas => exact kept run
  | some oldId =>
    cases comm with
    | add =>
      obtain ⟨⟨s₁, new'⟩, update, run⟩ := bind_ran.1 run
      obtain ⟨rfl, -⟩ := doItemUpdate_quiet off update
      have := pure_ran.1 run
      simp only [Prod.mk.injEq] at this
      exact this.2.1.symm
    | set => exact linked run
    | replace => exact linked run
    | append => exact absurd rfl first.1
    | prepend => exact absurd rfl first.2
    | cas =>
      simp only [Store.storeBranch] at run
      simp only [Store.ruling]
      split_ifs at run ⊢ with same
      · exact linked run
      · exact kept run

theorem Fresh.doStoreItem_ruling {result : StoreItemType} (fresh : Fresh s lay id r)
    (h : StoreInv s lay) (first : comm ≠ .append ∧ comm ≠ .prepend)
    (off : s.settings.lruLogEnabled = false) (run : s.doStoreItem comm id = .ok (s', result)) :
    result = s.ruling comm (itemGetCas s.log.mem (s.itemOf id)) (s.find r.key) := by
  obtain ⟨⟨s₁, old⟩, get, run⟩ := bind_ran.1 run
  have looked := fresh.looked h get
  obtain ⟨⟨s₂, outcome, new, it⟩, branch, run⟩ := bind_ran.1 run
  obtain ⟨s₃, -, run⟩ := bind_ran.1 run
  obtain ⟨s₄, -, run⟩ := bind_ran.1 run
  obtain ⟨-, rfl⟩ := pair_ran.1 run
  rw [storeBranch_ruling first (by rw [looked.setup.settings, off]) branch, looked.found, looked.log,
    looked.items]
  cases old with
  | none => rfl
  | some oldId => simp only [Store.ruling, looked.log, looked.items]

def endsLine (block : List UInt8) : Bool := block.drop (block.length - 2) == [13, 10]

theorem dataBlockEnds_eq (two : 2 ≤ nbytesOf s.log.mem (s.itemOf id)) :
    s.dataBlockEnds id = endsLine (dataOf s.log.mem (s.itemOf id)) := by
  set m := s.log.mem
  set a := itemData m (s.itemOf id)
  obtain ⟨n, length⟩ := Nat.exists_eq_add_of_le' two
  have tail : (dataOf m (s.itemOf id)).drop ((dataOf m (s.itemOf id)).length - 2) =
      [m (a + n), m (a + n + 1)] := by
    rw [dataOf, length_slice, length, slice_add, Nat.add_sub_cancel, List.drop_left' (length_slice ..)]
    rfl
  rw [endsLine, tail, Store.dataBlockEnds, length, show a + (n + 2) - 2 = a + n by omega, show a + (n + 2) - 1 = a + n + 1 by omega]
  simp only [List.cons_beq_cons, BEq.rfl, Bool.and_true, m]

/-- What a header line and its block leave alone, and the CAS word and data they write. -/
structure Uploaded (s s' : Store) (lay : Layout) (id cas : ℕ) (block : List UInt8) : Prop where
  records : SameRecords s'.log.mem s.log.mem lay
  metas : ∀ k ∈ s.table, s'.metas k = s.metas k
  table : s'.table = s.table
  clock : s'.clock = s.clock
  cas : itemGetCas s'.log.mem (s'.itemOf id) = cas % 2 ^ 64
  data : dataOf s'.log.mem (s'.itemOf id) = block

theorem Whole.upload {m : Mem} {b : Block} (whole : Whole m b)
    (flags : flagsOf m b.off = dirtyFlags) (length : nbytesOf m b.off = block.length) (cas : ℕ) :
    let m₁ := itemSetCas m b.off cas
    let m₂ := write m₁ (itemData m₁ b.off) block
    (∀ x, x < b.off ∨ b.stop ≤ x → m₂ x = m x) ∧ itemGetCas m₂ b.off = cas % 2 ^ 64 ∧
      dataOf m₂ b.off = block := by
  intro m₁ m₂
  have hasCas : has (flagsOf m b.off) itemCas = true := by
    rw [flags]
    decide
  have eq : m₁ = write m (b.off + 16) (le64 cas) := if_pos hasCas
  have header : Agree m₁ m b.off (b.off + 16) := fun x _ hx => itemSetCas_outside (by omega)
  have data : itemData m₁ b.off = itemData m b.off := itemData_congr header
  have low : b.off + 25 ≤ itemData m b.off := by
    rw [itemData, flags]
    simp only [sizeofItemData, show casRoom dirtyFlags = 8 by decide]
    omega
  have high := whole.data_le
  rw [length] at high
  have header₂ : Agree m₂ m₁ b.off (b.off + 16) := agree_write (.inl (by omega))
  have flags₂ : flagsOf m₂ b.off = flagsOf m b.off :=
    (flagsOf_congr header₂).trans (flagsOf_congr header)
  refine ⟨fun x outside => ?_, ?_, ?_⟩
  · have other : m₂ x = m₁ x := write_outside (by omega)
    rw [other]
    exact itemSetCas_outside (by omega)
  · rw [itemGetCas, flags₂, if_pos hasCas, ← u64_write m (b.off + 16) cas, ← eq]
    exact u64_congr (agree_write (.inl (by simp only [sizeofItemData]; omega)))
  · rw [dataOf, itemData_congr header₂, nbytesOf_congr header₂, nbytesOf_congr header, length]
    exact slice_write_self ..

theorem StoreInv.uploaded {exptime : ℤ} {cas : ℕ} (h : StoreInv s lay) (word : flags < 2 ^ 32)
    (room : ∀ n, updateRequest key flags (vlenOf block) = some n → RoomFor s n)
    (run : s.processUpdateCommand comm key flags exptime (vlenOf block) cas = .ok (s₁, .upload id)) :
    Uploaded s (s₁.receive id block) lay id cas block := by
  unfold Store.processUpdateCommand at run
  split_ifs at run with long range
  · cases pure_ran.1 run
  · cases pure_ran.1 run
  · obtain ⟨⟨s₂, it, succeed⟩, alloc, run⟩ := bind_ran.1 run
    have room := room _ (if_neg (not_or.2 ⟨long, range⟩))
    have ok : AllocOk s key flags (vlenOf block + 2) :=
      ⟨not_lt.1 long, word, by omega, by omega, room.size, room.wrap⟩
    obtain ⟨-, -, setup, metas, table, -⟩ := h.logs ok alloc
    obtain ⟨lay₂, inv, -, same, -, allocates⟩ := h.doItemAlloc ok alloc
    cases allocates with
    | failed =>
      obtain ⟨_, -, run⟩ := bind_ran.1 run
      cases pure_ran.1 run
    | tombstone =>
      obtain ⟨_, -, run⟩ := bind_ran.1 run
      cases pure_ran.1 run
    | item newId o rest plain live free shape written =>
      obtain ⟨rfl, eq⟩ := pair_ran.1 run
      obtain rfl : newId = id := Update.upload.inj eq
      have item : s₂.itemOf newId = o := by
        rw [Store.itemOf, shape]
        simp
      set b : Block := ⟨o, allocTotal true key.length flags (vlenOf block + 2)⟩
      have hb : b ∈ lay₂.live := by
        rw [live]
        exact List.mem_append_right _ (List.mem_singleton_self b)
      have length : nbytesOf s₂.log.mem b.off = block.length := by
        rw [written.nbytes]
        unfold vlenOf
        omega
      obtain ⟨outside, word, data⟩ :=
        (SweepInv.wholeRec inv hb).upload written.flags length cas
      have apart : ∀ c ∈ lay.live, c.Disjoint b := fun c hc =>
        (List.pairwise_append.1 (live ▸ inv.log.pairwise)).2.2 c hc b (List.mem_singleton_self b)
      have memory : ((s₂.setMem (itemSetCas s₂.log.mem (s₂.itemOf newId) cas)).receive newId
          block).log.mem = write (itemSetCas s₂.log.mem b.off cas)
            (itemData (itemSetCas s₂.log.mem b.off cas) b.off) block := by
        change write (itemSetCas s₂.log.mem (s₂.itemOf newId) cas)
          (itemData (itemSetCas s₂.log.mem (s₂.itemOf newId) cas) (s₂.itemOf newId)) block = _
        rw [item]
      have place : ((s₂.setMem (itemSetCas s₂.log.mem (s₂.itemOf newId) cas)).receive newId
          block).itemOf newId = b.off := item
      refine ⟨fun c hc => ?_, fun k hk => metas k (h.busy hk), table, setup.clock, ?_, ?_⟩
      · rw [memory]
        exact (agree_of_disjoint outside (apart c hc)).trans (same c hc)
      · rw [memory, place]
        exact word
      · rw [memory, place]
        exact data

/-- The answer to a storage command other than `append` and `prepend`. -/
def Store.verdict (s : Store) (comm : NreadComm) (key : Key) (cas : ℕ) (block : List UInt8) : Reply :=
  if key.length > keyMaxLength ∨ vlenOf block < 0 ∨ vlenOf block > 2 ^ 31 - 1 - 2 then .badFormat
  else if endsLine block then (s.ruling comm cas (s.find key)).reply
  else .badDataChunk

theorem Uploaded.ruling {cas : ℕ} (up : Uploaded s s' lay id cas block) (h : StoreInv s lay)
    (h' : StoreInv s' lay') : s'.ruling comm cas (s'.find key) = s.ruling comm cas (s.find key) := by
  have kept (k : ℕ) (hk : k ∈ s.table) := h.kept_record up.records up.clock hk (up.metas k hk)
  have find : s'.find key = s.find key :=
    find_congr h h' (fun k => by rw [up.table]) fun k hk => ⟨(kept k hk).1, (kept k hk).2.1⟩
  rw [find]
  cases found : s.find key with
  | none => rfl
  | some oldId =>
    obtain ⟨member, -⟩ := assocFind_linked (find_eq_some.1 found).1
    simp only [Store.ruling, (kept oldId member).2.2]

/-- A storage command whose header line gets a record answers what `verdict` says. -/
theorem Steady.verdict_of_upload {flags : UInt32} {exptime : ℤ} {cas : UInt64} {answer : Answer}
    (h : Steady s lay) (first : comm ≠ .append ∧ comm ≠ .prepend)
    (room : ∀ n, s.request (.store comm key flags exptime cas block) = some n → RoomFor s n)
    (header : s.processUpdateCommand comm key flags.toNat exptime (vlenOf block) cas.toNat =
      .ok (s₁, .upload id))
    (run : s.exec (.store comm key flags exptime cas block) = .ok (s', answer)) :
    answer = .line (s.verdict comm key cas.toNat block) := by
  have accepted : ¬(key.length > keyMaxLength ∨ vlenOf block < 0 ∨
      vlenOf block > 2 ^ 31 - 1 - 2) := by
    intro rejected
    rw [processUpdateCommand_rejected (if_pos rejected)] at header
    cases header
  obtain ⟨lay₁, opens⟩ := h.inv.processUpdateCommand flags.toNat_lt room header
  rw [Store.exec, header, ok_bind] at run
  obtain ⟨⟨s₂, reply⟩, complete, run⟩ := bind_ran.1 run
  obtain ⟨-, rfl⟩ := pair_ran.1 run
  obtain ⟨r, received⟩ := opens.received flags.toNat_lt h.sound
  have up := h.inv.uploaded flags.toNat_lt room header
  have small : cas.toNat % 2 ^ 64 = cas.toNat := Nat.mod_eq_of_lt cas.toNat_lt
  have length : nbytesOf (s₁.receive id block).log.mem ((s₁.receive id block).itemOf id) =
      block.length := by
    have := congrArg List.length up.data
    rwa [dataOf, length_slice] at this
  have ends : (s₁.receive id block).dataBlockEnds id = endsLine block := by
    rw [dataBlockEnds_eq, up.data]
    rw [length]
    unfold vlenOf at accepted
    omega
  obtain ⟨⟨s₃, reply'⟩, store, complete⟩ := bind_ran.1 complete
  obtain ⟨s₄, -, complete⟩ := bind_ran.1 complete
  obtain ⟨-, rfl⟩ := pair_ran.1 complete
  unfold Store.storeBlock at store
  rw [Store.verdict, if_neg accepted]
  rw [ends] at store
  split_ifs at store ⊢
  · obtain ⟨⟨s₅, result⟩, link, done⟩ := bind_ran.1 store
    obtain ⟨-, rfl⟩ := pair_ran.1 done
    rw [received.fresh.doStoreItem_ruling received.inv first
      (by rw [received.setup.settings, h.off]) link, received.hkey, up.cas, small,
      up.ruling h.inv received.inv]
  · obtain ⟨-, rfl⟩ := pair_ran.1 store
    rfl

/-- A storage command that gets its record answers what `verdict` says. -/
theorem Steady.verdict {flags : UInt32} {exptime : ℤ} {cas : UInt64} {answer : Answer}
    (h : Steady s lay) (first : comm ≠ .append ∧ comm ≠ .prepend)
    (plain : (Command.store comm key flags exptime cas block).Plain)
    (room : ∀ n, s.request (.store comm key flags exptime cas block) = some n → RoomFor s n)
    (served : ∀ n, s.request (.store comm key flags exptime cas block) = some n →
      (memoryAllocate s.log n).2 ≠ none)
    (run : s.exec (.store comm key flags exptime cas block) = .ok (s', answer)) :
    answer = .line (s.verdict comm key cas.toNat block) := by
  obtain ⟨⟨s₁, update⟩, header, rest⟩ := bind_ran.1 run
  cases update with
  | upload id => exact h.verdict_of_upload first room header run
  | reply reply =>
    cases request : updateRequest key flags.toNat (vlenOf block) with
    | none =>
      rw [processUpdateCommand_rejected request] at header
      cases header
      obtain ⟨-, rfl⟩ := pair_ran.1 rest
      unfold updateRequest at request
      split_ifs at request with rejected
      rw [Store.verdict, if_pos rejected]
    | some n =>
      exact absurd (processUpdateCommand_unserved h.inv plain request header).2 (served n request)

/-! ## Views without tombstones -/

def View.Tombless (v : View) : Prop := ∀ r ∈ v.recs, r.flags ≠ tombFlags

/-- The item under a key carries the flags `last` has for it. -/
def View.Shows (v : View) (last : Key → Option ℕ) : Prop :=
  ∀ key o, v.table key = some o → ∃ f < 2 ^ 32, last key = some f ∧
    ∃ r ∈ v.recs, r.off = o ∧ r.suffix = suffixText f r.data.length

namespace View

variable {last : Key → Option ℕ} {q : Rec} {f n : ℕ}

theorem Tombless.log (h : v.Tombless) (clean : r.flags ≠ tombFlags) : (v.log r).Tombless := by
  intro q hq
  rcases mem_log hq with hq | rfl
  · exact h q hq
  · exact clean

theorem Shows.log (h : v.Shows last) (r : Rec) : (v.log r).Shows last := by
  intro key o linked
  obtain ⟨f, word, given, q, mem, rest⟩ := h key o linked
  exact ⟨f, word, given, q, List.mem_append_left _ mem, rest⟩

theorem Shows.unlink (h : v.Shows last) (key : Key) : (v.unlink key).Shows last := by
  intro k o linked
  by_cases same : k = key
  · rw [same, unlink_self] at linked
    cases linked
  · rw [unlink_other same] at linked
    exact h k o linked

theorem Shows.drop (h : v.Shows last) (n : ℕ) : (v.drop n).Shows last := by
  intro key o linked
  obtain ⟨linked, away⟩ := Option.filter_eq_some_iff.1 linked
  obtain ⟨f, word, given, r, mem, off, suffix⟩ := h key o linked
  rw [← List.take_append_drop n v.recs] at mem
  rcases List.mem_append.1 mem with mem | mem
  · exact absurd off (of_decide_eq_true away r mem)
  · exact ⟨f, word, given, r, mem, off, suffix⟩

/-- A new item under its key, with the flags `f`. -/
theorem Shows.link (h : v.Shows last) (word : f < 2 ^ 32) (mem : q ∈ v.recs)
    (suffix : q.suffix = suffixText f q.data.length) :
    (v.link q.key q.off).Shows (Function.update last q.key (some f)) := by
  intro key o linked
  by_cases same : key = q.key
  · rw [same, link_self] at linked
    rw [same, Function.update_self]
    exact ⟨f, word, rfl, q, mem, Option.some.inj linked, suffix⟩
  · rw [link_other same] at linked
    rw [Function.update_of_ne same]
    exact h key o linked

theorem Shows.rewrite (h : v.Shows last) (sound : v.Sound) (rewrites : v.Rewrites q f) :
    Function.update last q.key (some f) = last := by
  obtain ⟨r, mem, linked, suffix⟩ := rewrites.old
  obtain ⟨f', word, given, r', mem', off, suffix'⟩ := h q.key r.off linked
  have same : r' = r := sound.inj r' mem' r mem off
  rw [same, suffix] at suffix'
  have flags := congrArg (fun text => strtoul text % 2 ^ 32) suffix'
  simp only [strtoul_suffixText rewrites.word, strtoul_suffixText word] at flags
  rw [flags, ← given, Function.update_eq_self]

end View

/-! ## Effects -/

/-- What is known of the client flags in the records and under the keys. -/
structure View.Flagged (v : View) (last : Key → Option ℕ) : Prop where
  tombless : v.Tombless
  shows : v.Shows last

variable {last : Key → Option ℕ} {n f : ℕ} {q : Rec}

namespace View

theorem Flagged.init : (⟨[], fun _ => none⟩ : View).Flagged fun _ => none :=
  ⟨by simp [Tombless], by simp [Shows]⟩

theorem Flagged.unlink (h : v.Flagged last) (key : Key) : (v.unlink key).Flagged last :=
  ⟨h.tombless, h.shows.unlink key⟩

theorem Flagged.log (h : v.Flagged last) (clean : r.flags ≠ tombFlags) : (v.log r).Flagged last :=
  ⟨h.tombless.log clean, h.shows.log r⟩

theorem Flagged.drop (h : v.Flagged last) (n : ℕ) : (v.drop n).Flagged last :=
  ⟨fun r hr => h.tombless r (List.mem_of_mem_drop hr), h.shows.drop n⟩

theorem Flagged.store (h : v.Flagged last) (flags : r.flags = storedFlags) (word : f < 2 ^ 32)
    (suffix : r.suffix = suffixText f r.data.length) :
    ((v.log r).link r.key r.off).Flagged (Function.update last r.key (some f)) := by
  have logged := h.log (r := r) (by rw [flags]; decide)
  exact ⟨logged.tombless,
    logged.shows.link word (List.mem_append_right _ (List.mem_singleton_self r)) suffix⟩

end View

theorem Hides.flagged (hides : Hides s v v') (h : v.Flagged last) : v'.Flagged last := by
  induction hides with
  | refl => exact h
  | step _ _ ih => exact ih (h.unlink _)

theorem RelogEffect.flagged (effect : RelogEffect s v key v') (sound : v.Sound)
    (h : v.Flagged last) : v'.Flagged last := by
  cases effect with
  | missing => exact h.unlink key
  | refused => exact h
  | rewritten q f _ stored rewrites =>
    have linked := h.store stored rewrites.word rewrites.suffix
    rwa [h.shows.rewrite sound rewrites] at linked

theorem BinDeleteEffect.flagged {succeed : Bool} (effect : BinDeleteEffect s v key succeed v')
    (h : v.Flagged last) : v'.Flagged last := by
  cases effect with
  | missing => exact h.unlink key
  | mismatch => exact h
  | deleted => exact h.unlink key

/-- The flags of the last storage command, after one more answer. -/
def remember (last : Key → Option ℕ) : Command × Answer → Key → Option ℕ
  | (.store comm key flags _ _ _, answer) =>
      if comm ≠ .append ∧ comm ≠ .prepend ∧ answer = .line .stored
      then Function.update last key (some flags.toNat) else last
  | _ => last

theorem StoreEffect.flagged {flags : UInt32} {exptime vlen : ℤ} {cas : UInt64} {reply : Reply}
    (effect : StoreEffect s v comm key flags.toNat vlen reply v') (sound : v.Sound)
    (h : v.Flagged last) :
    v'.Flagged (remember last (.store comm key flags exptime cas block, .line reply)) := by
  have stays (failed : reply ≠ .stored) :
      remember last (.store comm key flags exptime cas block, .line reply) = last :=
    if_neg fun all => failed (Answer.line.inj all.2.2)
  cases effect with
  | rejected =>
    rw [stays (by decide)]
    exact h
  | full _ n failed =>
    rw [stays failed]
    split_ifs
    · exact h.unlink key
    · exact h
  | spoilt r hflags =>
    rw [stays (by decide)]
    exact h.log (by rw [hflags]; decide)
  | stored r first hkey hflags suffix =>
    subst hkey
    rw [remember, if_pos ⟨first.1, first.2, rfl⟩]
    exact h.store hflags flags.toNat_lt suffix
  | refused r result _ failed hflags _ left =>
    have logged : (v.log r).Flagged last := h.log (by rw [hflags]; decide)
    rw [stays (by cases result <;> simp_all [StoreItemType.reply])]
    obtain rfl | rfl := left
    · exact logged
    · exact logged.unlink key
  | joined r q f joins hflags hkey stored rewrites =>
    have logged : (v.log r).Flagged last := h.log (by rw [hflags]; decide)
    have linked := logged.store stored rewrites.word rewrites.suffix
    rw [h.shows.rewrite sound rewrites] at linked
    have same : remember last (.store comm key flags exptime cas block, .line .stored) = last := by
      refine if_neg fun ⟨append, prepend, _⟩ => ?_
      exact joins.elim append prepend
    rw [same]
    exact linked

/-! ## Runs -/

/-- One command other than an ASCII `delete`, with plain client flags and room in the log. -/
structure FlagStep (s : Store) (a : Command × Answer) (s' : Store) : Prop where
  kind : ∀ key, a.1 ≠ .delete key
  plain : a.1.Plain
  fits : s.Fits a.1
  ran : s.exec a.1 = .ok (s', a.2)

structure FlaggedStore (s : Store) (lay : Layout) (last : Key → Option ℕ) : Prop where
  steady : Steady s lay
  flagged : (s.view lay).Flagged last

theorem FlaggedStore.leaves {last' : Key → Option ℕ} (h : FlaggedStore s lay last)
    (leaves : Leaves s s' lay' v) (flagged : v.Flagged last') : FlaggedStore s' lay' last' :=
  ⟨leaves.steady h.steady.off, by rw [leaves.view]; exact flagged⟩

theorem FlaggedStore.step {a : Command × Answer} (h : FlaggedStore s lay last)
    (step : FlagStep s a s') : ∃ lay', FlaggedStore s' lay' (remember last a) := by
  obtain ⟨cmd, answer⟩ := a
  obtain ⟨kind, plain, fits, run⟩ := step
  dsimp only at kind plain fits run
  cases cmd with
  | store comm key flags exptime cas block =>
    obtain ⟨lay', v, reply, rfl, leaves, effect⟩ := h.steady.store plain fits.first fits.second run
    exact ⟨lay', h.leaves leaves (effect.flagged h.steady.sound h.flagged)⟩
  | get returnCas keys =>
    obtain ⟨v, leaves, hides⟩ := h.steady.get run
    exact ⟨lay, h.leaves leaves (hides.flagged h.flagged)⟩
  | touch key exptime =>
    obtain ⟨lay', v, leaves, effect⟩ := h.steady.touch fits.first run
    exact ⟨lay', h.leaves leaves (effect.flagged h.steady.sound h.flagged)⟩
  | arithmetic key incr delta =>
    obtain ⟨lay', v, leaves, effect⟩ := h.steady.arithmetic fits.first run
    exact ⟨lay', h.leaves leaves (effect.flagged h.steady.sound h.flagged)⟩
  | delete key => exact absurd rfl (kind key)
  | binDelete key cas =>
    obtain ⟨v, succeed, -, leaves, effect⟩ := h.steady.binDelete run
    exact ⟨lay, h.leaves leaves (effect.flagged h.flagged)⟩
  | flushAll exptime =>
    obtain ⟨rfl, -⟩ := pair_ran.1 run
    obtain ⟨oldestLive, oldestCas, casId, eq⟩ := flushAll_eq s exptime
    rw [eq]
    exact ⟨lay, h.steady.reclock .., h.flagged⟩
  | clean =>
    obtain ⟨lay', k, leaves⟩ := h.steady.clean run
    exact ⟨lay', h.leaves leaves (h.flagged.drop k)⟩
  | tick n =>
    obtain ⟨rfl, -⟩ := pair_ran.1 run
    exact ⟨lay, h.steady.reclock (s.currentTime + n) s.oldestLive s.oldestCas s.casId, h.flagged⟩

/-! ## Responses -/

/-- `VALUE <key> <flags> <bytes>[ <cas>]`, and the data. -/
def valueText (key : Key) (flags : ℕ) (data : List UInt8) (cas : Option ℕ) : List UInt8 :=
  [86, 65, 76, 85, 69, 32] ++ key ++ 32 :: (decimal flags ++ 32 :: (decimalInt (data.length - 2) ++
    cas.elim [] (fun c => 32 :: decimal c) ++ [13, 10])) ++ data

theorem render_hitSegments {m : Mem} {o : ℕ} (returnCas : Bool)
    (suffix : suffixOf m o = suffixText f (dataOf m o).length) :
    (hitSegments m o returnCas).flatMap (Segment.render m) =
      valueText (keyOf m o) f (dataOf m o) (if returnCas then some (itemGetCas m o) else none) := by
  have text : slice m (itemSuffix m o) (nsuffixOf m o) = suffixText f (dataOf m o).length := suffix
  cases returnCas with
  | false =>
    have both : slice m (itemSuffix m o) (nsuffixOf m o + nbytesOf m o) =
        suffixText f (dataOf m o).length ++ dataOf m o := by
      rw [slice_add, text, dataOf]
      congr 2
      simp only [itemSuffix, itemData]
      omega
    simp only [hitSegments, Bool.false_eq_true, if_false, List.flatMap_append, List.flatMap_cons,
      List.flatMap_nil, Segment.render, both, valueText, suffixText, keyOf]
    simp
  | true =>
    have short : slice m (itemSuffix m o) (nsuffixOf m o - 2) =
        32 :: (decimal f ++ 32 :: decimalInt ((dataOf m o).length - 2)) := by
      have parts : suffixText f (dataOf m o).length =
          32 :: (decimal f ++ 32 :: decimalInt ((dataOf m o).length - 2)) ++ [13, 10] := by
        simp [suffixText]
      have length := congrArg List.length text
      rw [length_slice, parts, List.length_append] at length
      have inner := slice_sub m (a := itemSuffix m o) (i := 0) (k := nsuffixOf m o - 2)
        (n := nsuffixOf m o) (by omega)
      rw [Nat.add_zero] at inner
      rw [inner, text, List.drop_zero, parts, List.take_left' (by rw [length]; rfl)]
    simp only [hitSegments, if_true, List.flatMap_append, List.flatMap_cons,
      List.flatMap_nil, Segment.render, short, valueText, keyOf]
    simp [dataOf]

/-- The record of the item a lookup returns carries the flags of the last storage command. -/
theorem FlaggedStore.suffix (h : FlaggedStore s lay last) (found : s.find key = some id) :
    keyOf s.log.mem (s.itemOf id) = key ∧ ∃ f, last key = some f ∧
      suffixOf s.log.mem (s.itemOf id) = suffixText f (dataOf s.log.mem (s.itemOf id)).length := by
  obtain ⟨_, holds⟩ := h.steady.inv.holds h.steady.sound found
  obtain ⟨f, -, given, r, mem, off, suffix⟩ := h.flagged.shows key _ (table_of_find found)
  have same : r = s.recAt id := h.steady.sound.inj r mem _ holds.mem off
  rw [same] at suffix
  exact ⟨holds.key, f, given, suffix⟩

def Part (last : Key → Option ℕ) (key : Key) (part : List UInt8) : Prop :=
  part = [] ∨ ∃ f data cas, last key = some f ∧ part = valueText key f data cas

theorem FlaggedStore.part (h : FlaggedStore s lay last) (returnCas : Bool)
    (found : s.find key = some id) : Part last key
      ((hitSegments s.log.mem (s.itemOf id) returnCas).flatMap (Segment.render s.log.mem)) := by
  obtain ⟨hkey, f, given, suffix⟩ := h.suffix found
  rw [render_hitSegments returnCas suffix, hkey]
  exact .inr ⟨f, _, _, given, rfl⟩

theorem FlaggedStore.getKeys {returnCas : Bool} {items items' : List ℕ}
    {segments segments' : List Segment} {keys : List Key} (h : FlaggedStore s lay last)
    (run : s.processGetKeys returnCas items segments keys = .ok (s', some (items', segments'))) :
    s'.log = s.log ∧ ∃ parts, List.Forall₂ (Part last) keys parts ∧
      segments'.flatMap (Segment.render s.log.mem) =
        segments.flatMap (Segment.render s.log.mem) ++ parts.flatten ++ [69, 78, 68, 13, 10] := by
  induction keys generalizing s items segments with
  | nil =>
    obtain ⟨rfl, eq⟩ := pair_ran.1 run
    cases eq
    refine ⟨rfl, [], .nil, ?_⟩
    simp [Segment.render]
  | cons key keys ih =>
    rw [Store.processGetKeys] at run
    split_ifs at run
    · obtain ⟨_, -, run⟩ := bind_ran.1 run
      cases pure_ran.1 run
    · obtain ⟨⟨s₁, hit⟩, first, run⟩ := bind_ran.1 run
      obtain ⟨out, log, -, -, segs⟩ := h.steady.inv.getKey h.steady.off first
      have quiet : s₁.settings.lruLogEnabled = false := by rw [out.setup.settings, h.steady.off]
      cases hit with
      | none =>
        have view : s₁.view lay = (s.view lay).unlink key := out.view
        obtain ⟨log', parts, rest, text⟩ := ih ⟨⟨out.inv, by rw [view]; exact h.steady.sound.unlink key,
          quiet⟩, by rw [view]; exact h.flagged.unlink key⟩ run
        rw [log] at text
        exact ⟨log'.trans log, [] :: parts, .cons (.inl rfl) rest, text⟩
      | some p =>
        obtain ⟨id, more⟩ := p
        obtain ⟨found, rfl⟩ := segs id more rfl
        have view : s₁.view lay = s.view lay := out.view
        obtain ⟨log', parts, rest, text⟩ := ih ⟨⟨out.inv, by rw [view]; exact h.steady.sound, quiet⟩,
          by rw [view]; exact h.flagged⟩ run
        rw [log, List.flatMap_append] at text
        refine ⟨log'.trans log, _ :: parts, .cons (h.part returnCas found) rest, ?_⟩
        rw [text, List.flatten_cons]
        simp only [List.append_assoc]

/-! ## Client flags are the client's -/

def Store.Served (s : Store) (cmd : Command) : Prop :=
  s.Fits cmd ∧ ∀ n, s.request cmd = some n → (memoryAllocate s.log n).2 ≠ none

/-- The answer to a storage command does not depend on its plain flags, no record is a tombstone,
and a `get` returns the flags of the last storage command. -/
structure FlagsKept (s : Store) (last : Key → Option ℕ) : Prop where
  answer : ∀ comm key flags flags' exptime cas block s₁ s₂ answer answer',
    comm ≠ .append → comm ≠ .prepend →
    (Command.store comm key flags exptime cas block).Plain →
    (Command.store comm key flags' exptime cas block).Plain →
    s.Served (.store comm key flags exptime cas block) →
    s.Served (.store comm key flags' exptime cas block) →
    s.exec (.store comm key flags exptime cas block) = .ok (s₁, answer) →
    s.exec (.store comm key flags' exptime cas block) = .ok (s₂, answer') → answer = answer'
  tombless : ∀ b ∈ s.log.records, has (flagsOf s.log.mem b.off) itemDeleted = false
  get : ∀ returnCas keys s' bytes, s.exec (.get returnCas keys) = .ok (s', .values bytes) →
    ∃ parts, List.Forall₂ (Part last) keys parts ∧ bytes = parts.flatten ++ [69, 78, 68, 13, 10]

theorem FlaggedStore.kept (h : FlaggedStore s lay last) : FlagsKept s last where
  answer comm key flags flags' exptime cas block s₁ s₂ answer answer' append prepend plain plain'
      served served' run run' := by
    rw [h.steady.verdict ⟨append, prepend⟩ plain served.1.first served.2 run,
      h.steady.verdict ⟨append, prepend⟩ plain' served'.1.first served'.2 run']
  tombless b hb := by
    rw [LogInv.records_eq h.steady.inv.log] at hb
    have mem : recOf s.log.mem b ∈ s.journal lay := SweepInv.mem_journal.2 ⟨b, hb, rfl⟩
    have known := (h.steady.sound.known _ mem).resolve_left (h.flagged.tombless _ mem)
    change has (recOf s.log.mem b).flags itemDeleted = false
    rcases known.2 with flags | flags | flags <;> rw [flags] <;> decide
  get returnCas keys s' bytes run := by
    obtain ⟨⟨s₁, response⟩, command, run⟩ := bind_ran.1 run
    cases response with
    | none => cases pure_ran.1 run
    | some p =>
      obtain ⟨items, segments⟩ := p
      obtain ⟨s₂, -, run⟩ := bind_ran.1 run
      obtain ⟨log, parts, shown, text⟩ := h.getKeys command
      refine ⟨parts, shown, ?_⟩
      cases pure_ran.1 run
      rw [log, text]
      rfl

theorem client_flags_kept {limit now : ℕ} {acts : List (Command × Answer)}
    (cas : settings.useCas = true) (off : settings.lruLogEnabled = false) (large : 35 ≤ limit)
    (small : limit < 2 ^ 32) (run : Run FlagStep (Store.init settings limit now) acts s) :
    FlagsKept s (acts.foldl remember fun _ => none) := by
  have start : FlaggedStore (Store.init settings limit now) (.flat []) fun _ => none :=
    ⟨⟨Store.init_inv large small cas, .init, off⟩, .init⟩
  obtain ⟨lay, h⟩ := run.simulates (fun s last => ∃ lay, FlaggedStore s lay last) remember
    (fun s a s' last ⟨lay, h⟩ step => h.step step) ⟨_, start⟩
  exact h.kept

/-- `set a` with the flags 77 and the value 1, `incr`, `touch` and `gets`. -/
def flagTrace : List (Command × Answer) :=
  [(.store .set [97] 77 0 0 [49, 13, 10], .line .stored), (.arithmetic [97] true 9, .line (.number 10)),
    (.touch [97] 0, .line .touched),
    (.get false [[97]], .values (valueText [97] 77 [49, 48, 13, 10] none ++ [69, 78, 68, 13, 10]))]

/-- A command other than `delete` with the given answer. -/
def flagNext (s : Store) (a : Command × Answer) : Option Store :=
  match a.1 with
  | .delete _ => none
  | _ => (s.execSimply a.1).bind fun p => if p.2 = a.2 then some p.1 else none

theorem flagStep_of_next {a : Command × Answer} (next : flagNext s a = some s') : FlagStep s a s' := by
  obtain ⟨cmd, answer⟩ := a
  unfold flagNext at next
  split at next
  · cases next
  · rename_i others
    obtain ⟨⟨s₁, answer₁⟩, ran, next⟩ := Option.bind_eq_some_iff.1 next
    rw [Option.ite_none_right_eq_some] at next
    obtain ⟨same, eq⟩ := next
    cases eq
    cases same
    obtain ⟨plain, fits, ran⟩ := execSimply_some ran
    exact ⟨others, plain, fits, ran⟩

theorem client_flags_kept_set : ∃ s, Run FlagStep
    (Store.init (settingsInit 1500000000) memlogDefaultSize 62) flagTrace s ∧
      FlagsKept s (flagTrace.foldl remember fun _ => none) := by
  have eval : (flagTrace.foldlM flagNext
      (Store.init (settingsInit 1500000000) memlogDefaultSize 62)).isSome = true := by
    decide +kernel
  obtain ⟨s, run⟩ := Option.isSome_iff_exists.1 eval
  have steps := (Run.of_foldlM run).mono fun _ _ _ next => flagStep_of_next next
  exact ⟨s, steps, client_flags_kept rfl rfl (by decide) (by decide) steps⟩

/-- With flags 128 a `set` is answered as if the log were full, and leaves a tombstone. -/
theorem deleted_bit_stores_tombstone : ∃ s₁ s₂,
    (Store.init (settingsInit 1500000000) memlogDefaultSize 62).exec
      (.store .set [97] 127 0 0 [120, 13, 10]) = .ok (s₁, .line .stored) ∧
    (Store.init (settingsInit 1500000000) memlogDefaultSize 62).exec
      (.store .set [97] 128 0 0 [120, 13, 10]) = .ok (s₂, .line .noMemoryStoring) ∧
    s₂.log.records = [⟨0, 37⟩] ∧ has (flagsOf s₂.log.mem 0) itemDeleted = true := by
  have eval : ((Store.init (settingsInit 1500000000) memlogDefaultSize 62).exec
      (.store .set [97] 127 0 0 [120, 13, 10])).toOption.map Prod.snd = some (.line .stored) := by
    decide +kernel
  have eval' : ((Store.init (settingsInit 1500000000) memlogDefaultSize 62).exec
      (.store .set [97] 128 0 0 [120, 13, 10])).toOption.map (fun p => (p.2, p.1.log.records,
        has (flagsOf p.1.log.mem 0) itemDeleted)) = some (.line .noMemoryStoring, [⟨0, 37⟩], true) := by
    decide +kernel
  obtain ⟨⟨s₁, answer⟩, ran, eq⟩ := Option.map_eq_some_iff.1 eval
  obtain ⟨⟨s₂, answer'⟩, ran', eq'⟩ := Option.map_eq_some_iff.1 eval'
  simp only [Prod.mk.injEq] at eq'
  obtain ⟨rfl, records, deleted⟩ := eq'
  obtain rfl : answer = .line .stored := eq
  exact ⟨s₁, s₂, ok_of_toOption ran, ok_of_toOption ran', records, deleted⟩

end LogMemcached
