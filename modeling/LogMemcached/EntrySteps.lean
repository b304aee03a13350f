import LogMemcached.Entries
import LogMemcached.SoundSteps

/-!
# What the commands do to the cache

For each command path, the cache it leaves: `Contents.store` says what a storage command does, `touch`,
`incr` and `decr` link a changed copy of the entry they find, and everything else lets entries fade.
-/

namespace LogMemcached

open ByteMem CText Tiling Fallible Store

variable {s s₁ s₂ s' : Store} {lay lay' : Layout} {id newId flags exptime : ℕ} {key : Key}
  {nbytes : ℤ} {r : Rec} {comm : NreadComm} {c : Contents}

theorem Contents.link_congr {e e' : Content} (data : e.data = e'.data) (flags : e.flags = e'.flags)
    (exptime : e.exptime = e'.exptime) : c.link key e = c.link key e' := by
  have stamp : c.stamp e = c.stamp e' := Content.ext data flags exptime rfl rfl
  rw [Contents.link, Contents.link, stamp]

theorem entryOf_rec (mem : r ∈ s.journal lay) (off : r.off = s.itemOf id) :
    (s.entryOf id).data = r.data ∧ (s.entryOf id).flags = strtoul r.suffix % 2 ^ 32 ∧
      (s.entryOf id).exptime = r.exptime := by
  have same := recAt_eq mem off
  have suffix : suffixOf s.log.mem (s.itemOf id) = r.suffix := congrArg Rec.suffix same
  refine ⟨congrArg Rec.data same, ?_, congrArg Rec.exptime same⟩
  simp only [Store.entryOf, contentAt, clientFlagsOf, suffix]

theorem exptime_lt (s : Store) (id : ℕ) : (s.entryOf id).exptime < 2 ^ 32 := u32_lt _ _

/-! ## Writing an item again -/

/-- A new item, filled with `data`, takes the place of a linked one. -/
theorem StoreInv.contents_relink {succeed : Bool} {data : List UInt8} (h : StoreInv s lay)
    (member : id ∈ s.table) (ok : AllocOk s (s.keyAt id) flags nbytes)
    (alloc : s.doItemAlloc (s.keyAt id) flags exptime nbytes = .ok (s₁, some newId, succeed))
    (fill : ∀ lay₁ q, StoreInv s₁ lay₁ → Fresh s₁ lay₁ newId q → q.data.length = nbytes.toNat →
      (∀ k ∈ s₁.table, s₁.itemOf k ≠ q.off) →
      Beside s s₁ lay lay₁ q →
      ∃ q', Fills s₁ s₂ lay₁ newId q q' ∧ q'.data = data ∧ s₂.contents = s₁.contents)
    (replace : s₂.doItemReplace id newId = .ok s') :
    s'.contents = s.contents.link (s.keyAt id)
      { s.entryOf id with data := data, flags := flags, exptime := exptime % 2 ^ 32 } := by
  obtain ⟨lay₁, inv₁, setup₁, metas, table, logs⟩ := h.logs ok alloc
  cases logs with
  | item _ q plain fresh new hkey suffix length expires view₁ =>
    have kept := beside_new metas new view₁
    have apart : ∀ k ∈ s₁.table, s₁.itemOf k ≠ q.off := fun k hk => by
      rw [table] at hk
      exact (kept k (h.recAt_mem hk) (h.busy hk)).2.2
    obtain ⟨q', fills, hdata, cache⟩ := fill lay₁ q inv₁ fresh length apart kept
    obtain ⟨m, rfl⟩ := fills.shape
    have member₂ : id ∈ (s₁.setMem m).table := by
      change id ∈ s₁.table
      rw [table]
      exact member
    obtain ⟨old, mem, other⟩ := kept id (h.recAt_mem member) (h.busy member)
    have key₂ : (s₁.setMem m).keyAt id = s.keyAt id :=
      congrArg Rec.key ((fills.recAt mem other).trans old)
    have sameKey : q'.key = s.keyAt id := by rw [fills.same]; exact hkey
    have linked := fills.fresh.contents_replace fills.inv member₂ (key₂.trans sameKey.symm) replace
    obtain ⟨edata, eflags, eexptime⟩ := entryOf_rec fills.fresh.mem fills.fresh.off
    rw [linked, cache, h.contents_alloc ok alloc, sameKey]
    refine Contents.link_congr (edata.trans hdata) (eflags.trans ?_) (eexptime.trans ?_)
    · rw [fills.same]
      change strtoul q.suffix % 2 ^ 32 = flags
      rw [suffix, strtoul_suffixText ok.word]
    · rw [fills.same]
      exact expires

theorem Fresh.fills_data (fresh : Fresh s lay id r) (h : StoreInv s lay)
    (apart : ∀ k ∈ s.table, s.itemOf k ≠ r.off) {bytes : List UInt8}
    (length : bytes.length = r.data.length) :
    ∃ r', Fills s (s.setMem (write s.log.mem (itemData s.log.mem (s.itemOf id)) bytes)) lay id r r' ∧
      r'.data = bytes ∧
      (s.setMem (write s.log.mem (itemData s.log.mem (s.itemOf id)) bytes)).contents = s.contents := by
  refine ⟨_, fresh.write_data h _ bytes le_rfl (by rw [length]), ?_,
    fresh.contents_write_data h apart _ bytes le_rfl (by rw [length])⟩
  rw [← length]
  exact slice_write_self ..

/-! ## Touch -/

/-- `touch`: an entry that can be seen is linked again with the new expiry; without an entry or
without room for its copy the lookup is all that happens. -/
theorem StoreInv.contents_doItemTouch {it : Option ℕ} (h : StoreInv s lay) (short : key.length ≤ 250)
    (room : ∀ n, s.touchRequest key = some n → RoomFor s n)
    (run : s.doItemTouch key exptime = .ok (s', it)) :
    it = none ∧ s'.contents = s.contents.look key ∨
      it ≠ none ∧ ∃ e, s.contents.visible key = some e ∧
        s'.contents = s.contents.link key { e with exptime := exptime % 2 ^ 32 } := by
  obtain ⟨⟨s₁, old⟩, get, run⟩ := bind_ran.1 run
  obtain ⟨look, -, shown⟩ := h.contents_get get
  cases old with
  | none =>
    obtain ⟨rfl, rfl⟩ := pair_ran.1 run
    exact .inl ⟨rfl, look⟩
  | some id =>
    obtain ⟨-, member, hkey, inv₁, -⟩ := h.get_some get
    rw [Contents.look, shown, if_neg (by simp)] at look
    obtain ⟨⟨s₂, new, succeed⟩, alloc, run⟩ := bind_ran.1 run
    have ok := (h.allocOk_touch get short room).2
    rw [slice_keyAt hkey] at alloc
    cases new with
    | none =>
      obtain ⟨s₃, remove, run⟩ := bind_ran.1 run
      obtain ⟨rfl, rfl⟩ := pair_ran.1 run
      refine .inl ⟨rfl, ?_⟩
      rw [Contents.look, shown, if_neg (by simp), contents_doItemRemove remove,
        StoreInv.contents_alloc inv₁ ok alloc, look]
    | some newId =>
      obtain ⟨s₄, replace, run⟩ := bind_ran.1 run
      obtain ⟨s₅, remove, run⟩ := bind_ran.1 run
      obtain ⟨s₆, remove', run⟩ := bind_ran.1 run
      obtain ⟨rfl, rfl⟩ := pair_ran.1 run
      obtain ⟨eq, -⟩ := inv₁.nbytesInt_recAt (inv₁.recAt_mem member) rfl
      have relinked := StoreInv.contents_relink inv₁ member ok alloc
        (fun lay₁ q inv fresh length apart kept => by
          have old := (kept id (inv₁.recAt_mem member) (inv₁.busy member)).1
          have bytes : dataOf s₂.log.mem (s₂.itemOf id) = (s₁.entryOf id).data :=
            congrArg Rec.data old
          obtain ⟨q', fills, hdata, cache⟩ := fresh.fills_data inv apart
            (show (dataOf s₂.log.mem (s₂.itemOf id)).length = q.data.length by
              rw [bytes, length, eq]
              rfl)
          exact ⟨q', fills, hdata.trans bytes, cache⟩) replace
      obtain ⟨lay', r, relink, -, -, -⟩ := StoreInv.relink inv₁ member ok alloc
        (fun lay₁ q inv fresh length kept => fresh.copyData id inv (by
          rw [length, eq, (kept id (inv₁.recAt_mem member) (inv₁.busy member)).1]
          rfl)) replace
      have same := (sameTable_doItemRemove remove).trans (sameTable_doItemRemove remove')
      have inv₆ := (relink.inv.doItemRemove remove).doItemRemove remove'
      have mem : r ∈ s₆.journal lay' := same.journal ▸ relink.mem
      have marked := StoreInv.contents_markItemStored inv₆ mem (relink.off.trans (same.item newId).symm)
        relink.flags
      refine .inr ⟨by simp, _, shown, ?_⟩
      rw [marked, contents_doItemRemove remove', contents_doItemRemove remove, relinked, look, hkey]
      rfl

/-! ## Arithmetic -/

theorem StoreInv.contents_deltaStore {value : ℕ} {result : DeltaResult} (h : StoreInv s lay)
    (sound : (s.view lay).Sound) (get : s.doItemGet key = .ok (s₁, some id))
    (short : key.length ≤ 250) (small : value < 2 ^ 64)
    (room : RoomFor s (allocTotal true key.length (s.deltaFlags id) ((decimal value).length + 2)))
    (run : s₁.deltaStore id value = .ok (s', result)) :
    (∀ n, result ≠ .ok n) ∧ s'.contents = s.contents ∨
      result = .ok value ∧ s'.contents = s.contents.link key
        { s.entryOf id with data := decimal value ++ [13, 10] } := by
  obtain ⟨found, member, hkey, inv₁, table⟩ := h.get_some get
  obtain ⟨f, holds⟩ := h.holds sound found
  obtain ⟨look, -, shown⟩ := h.contents_get get
  rw [Contents.look, shown, if_neg (by simp)] at look
  have flags := table.deltaFlags id
  have ok := table.allocOk_delta hkey short small room
  have entry : s₁.entryOf id = s.entryOf id := by
    have shown' := visible_of_find found
    rw [shown, Option.map_some] at shown'
    exact Option.some.inj shown'
  unfold Store.deltaStore at run
  dsimp only at run
  split_ifs at run with many one
  · obtain ⟨⟨s₂, new, succeed⟩, alloc, run⟩ := bind_ran.1 run
    rw [show strtoul ((suffixOf s₁.log.mem (s₁.itemOf id)).drop 1) % 2 ^ 32 = s.deltaFlags id from
      flags] at alloc
    change s₁.doItemAlloc (s₁.keyAt id) _ _ _ = _ at alloc
    cases new with
    | none =>
      obtain ⟨s₃, remove, run⟩ := bind_ran.1 run
      obtain ⟨rfl, rfl⟩ := pair_ran.1 run
      rw [contents_doItemRemove remove, StoreInv.contents_alloc inv₁ ok alloc, look]
      exact .inl ⟨by simp, rfl⟩
    | some newId =>
      obtain ⟨s₄, replace, run⟩ := bind_ran.1 run
      obtain ⟨s₅, remove, run⟩ := bind_ran.1 run
      obtain ⟨s₆, remove', run⟩ := bind_ran.1 run
      obtain ⟨rfl, rfl⟩ := pair_ran.1 run
      have count (q : Rec) (total : q.data.length = ((decimal value).length + 2 : ℤ).toNat) :
          (decimal value ++ [13, 10]).length = q.data.length := by
        rw [total, List.length_append]
        simp only [List.length_cons, List.length_nil]
        omega
      have relinked := StoreInv.contents_relink inv₁ member ok alloc
        (fun lay₁ q inv fresh total apart _ => fresh.fills_data inv apart (count q total)) replace
      obtain ⟨lay', r, relink, rkey, -, -⟩ := StoreInv.relink inv₁ member ok alloc
        (fun lay₁ q inv fresh total _ => ⟨_, fresh.write_data inv _ _ le_rfl (by
          rw [count q total])⟩) replace
      have old : s₁.recAt id ∈ s₄.journal lay' := by
        rw [journal_of_view relink.view]
        exact List.mem_append_left _ (inv₁.recAt_mem member)
      generalize (if s₄.settings.useCas then _ else 0) = cas at remove
      set s₃ := s₄.setMem (itemSetCas s₄.log.mem (s₁.itemOf id) cas)
      have alone := relink.alone inv₁ member rkey
      have recas : StoreInv s₃ lay' ∧ s₃.view lay' = s₄.view lay' :=
        StoreInv.setCas relink.inv old alone cas
      have cached : s₃.contents = s₄.contents := StoreInv.contents_setCas relink.inv old alone cas
      have mem : r ∈ s₃.journal lay' := by
        rw [journal_of_view recas.2]
        exact relink.mem
      have marked : (s₃.markItemStored newId).contents = s₃.contents :=
        StoreInv.contents_markItemStored recas.1 mem relink.off relink.flags
      refine .inr ⟨rfl, ?_⟩
      rw [contents_doItemRemove remove', contents_doItemRemove remove, marked, cached, relinked, look, hkey,
        entry]
      refine Contents.link_congr rfl (holds.delta.trans holds.client.symm) ?_
      have same : (s₁.entryOf id).exptime = (s.entryOf id).exptime := congrArg Content.exptime entry
      exact (Nat.mod_eq_of_lt (exptime_lt s₁ id)).trans same
  · obtain ⟨s₃, remove, run⟩ := bind_ran.1 run
    obtain ⟨rfl, rfl⟩ := pair_ran.1 run
    exact .inl ⟨by simp, (contents_doItemRemove remove).trans look⟩
  · obtain ⟨rfl, rfl⟩ := pair_ran.1 run
    exact .inl ⟨by simp, look⟩

/-- `incr` and `decr`: the entry is linked again with the new value as its data. -/
theorem StoreInv.contents_doAddDelta {incr : Bool} {delta : ℕ} {cas : Option ℕ} {result : DeltaResult}
    (h : StoreInv s lay) (sound : (s.view lay).Sound) (short : key.length ≤ 250)
    (room : ∀ id, s.find key = some id → 2 < nbytesInt s.log.mem (s.itemOf id) →
      ∀ n, s.deltaRequest key incr delta = some n → RoomFor s n)
    (run : s.doAddDelta key incr delta cas = .ok (s', result)) :
    (∀ n, result ≠ .ok n) ∧ s'.contents = s.contents.look key ∨
      ∃ e value, s.contents.visible key = some e ∧ result = .ok value ∧
        s'.contents = s.contents.link key { e with data := decimal value ++ [13, 10] } := by
  obtain ⟨⟨s₁, old⟩, get, run⟩ := bind_ran.1 run
  obtain ⟨look, -, shown⟩ := h.contents_get get
  cases old with
  | none =>
    obtain ⟨rfl, rfl⟩ := pair_ran.1 run
    exact .inl ⟨by simp, look⟩
  | some id =>
    obtain ⟨found, member, hkey, inv₁, table⟩ := h.get_some get
    dsimp only at run
    split_ifs at run with tiny mismatch
    · obtain ⟨rfl, rfl⟩ := pair_ran.1 run
      exact .inl ⟨by simp, look⟩
    · obtain ⟨s₂, remove, run⟩ := bind_ran.1 run
      obtain ⟨rfl, rfl⟩ := pair_ran.1 run
      exact .inl ⟨by simp, (contents_doItemRemove remove).trans look⟩
    · have text := table.dataText id
      rw [text] at run
      cases parse : safeStrtoull (s.dataText id) with
      | none =>
        simp only [parse] at run
        obtain ⟨s₂, remove, run⟩ := bind_ran.1 run
        obtain ⟨rfl, rfl⟩ := pair_ran.1 run
        exact .inl ⟨by simp, (contents_doItemRemove remove).trans look⟩
      | some value =>
        simp only [parse] at run
        rw [table.log, table.item, not_le] at tiny
        rcases h.contents_deltaStore sound get short (deltaValue_lt (safeStrtoull_lt parse))
          (room id found tiny _ (by simp [Store.deltaRequest, found, parse])) run with
          kept | ⟨result, linked⟩
        · rw [Contents.look, shown, if_neg (by simp)]
          exact .inl kept
        · exact .inr ⟨_, _, visible_of_find found, result, linked⟩

/-! ## Retrieval and deletion -/

theorem StoreInv.contents_getKey {returnCas : Bool} {hit : Option (ℕ × List Segment)}
    (h : StoreInv s lay) (off : s.settings.lruLogEnabled = false)
    (run : s.getKey returnCas key = .ok (s', hit)) :
    hit = none ∧ s.contents.visible key = none ∧ s'.contents = s.contents.look key ∨
      ∃ id segments, hit = some (id, segments) ∧ s.contents.visible key = some (s.entryOf id) ∧
        s'.contents = s.contents.access key := by
  obtain ⟨⟨s₁, it⟩, get, run⟩ := bind_ran.1 run
  obtain ⟨look, -, shown⟩ := h.contents_get get
  cases it with
  | none =>
    obtain ⟨rfl, rfl⟩ := pair_ran.1 run
    exact .inl ⟨rfl, shown, look⟩
  | some id =>
    obtain ⟨found, member, hkey, inv₁, table⟩ := h.get_some get
    rw [Contents.look, shown, if_neg (by simp)] at look
    obtain ⟨⟨s₂, new⟩, update, run⟩ := bind_ran.1 run
    have quiet : s₁.settings.lruLogEnabled = false := by rw [table.settings, off]
    obtain ⟨rfl, -⟩ := LogMemcached.doItemUpdate_quiet quiet update
    obtain ⟨rfl, rfl⟩ := pair_ran.1 run
    refine .inr ⟨id, _, rfl, visible_of_find found, ?_⟩
    rw [StoreInv.contents_update inv₁ quiet member update, look, hkey]

theorem StoreInv.fades_getKey {returnCas : Bool} {hit : Option (ℕ × List Segment)}
    (h : StoreInv s lay) (off : s.settings.lruLogEnabled = false)
    (run : s.getKey returnCas key = .ok (s', hit)) : s.contents.Fades s'.contents := by
  rcases h.contents_getKey off run with ⟨-, -, eq⟩ | ⟨id, -, -, shown, eq⟩
  · exact eq ▸ Contents.fades_look _ key
  · exact eq ▸ Contents.fades_access shown

theorem contents_removeAll {ids : List ℕ} (run : s.removeAll ids = .ok s') : s'.contents = s.contents := by
  induction ids generalizing s with
  | nil => rw [pure_ran.1 run]
  | cons id ids ih =>
    obtain ⟨s₁, first, rest⟩ := bind_ran.1 run
    exact (ih rest).trans (contents_doItemRemove first)

theorem StoreInv.fades_getKeys {returnCas : Bool} {items : List ℕ} {segments : List Segment}
    {keys : List Key} {response : Option (List ℕ × List Segment)} (h : StoreInv s lay)
    (off : s.settings.lruLogEnabled = false)
    (run : s.processGetKeys returnCas items segments keys = .ok (s', response)) :
    s.contents.Fades s'.contents := by
  induction keys generalizing s items segments with
  | nil =>
    obtain ⟨rfl, -⟩ := pair_ran.1 run
    exact .refl _
  | cons key keys ih =>
    rw [Store.processGetKeys] at run
    split_ifs at run
    · obtain ⟨s₁, remove, run⟩ := bind_ran.1 run
      obtain ⟨rfl, -⟩ := pair_ran.1 run
      exact .of_eq (contents_removeAll remove)
    · obtain ⟨⟨s₁, hit⟩, first, run⟩ := bind_ran.1 run
      obtain ⟨out, -⟩ := h.getKey off first
      have quiet : s₁.settings.lruLogEnabled = false := by rw [out.setup.settings, off]
      have fades := h.fades_getKey off first
      cases hit with
      | none => exact fades.trans (ih out.inv quiet run)
      | some p => exact fades.trans (ih out.inv quiet run)

/-- The tombstone step of `delete` changes nothing that a client sees. -/
theorem StoreInv.contents_deleteLog {succeed : Bool} (h : StoreInv s lay) (short : key.length ≤ 250)
    (room : RoomFor s (deleteRequest key)) (run : s.deleteLog key = .ok (s', succeed)) :
    s'.contents = s.contents := by
  obtain ⟨⟨s₁, it, done⟩, alloc, run⟩ := bind_ran.1 run
  obtain ⟨rfl, -⟩ := pair_ran.1 run
  have ok : AllocOk s key itemDeleted.toNat 0 :=
    ⟨short, by decide, le_rfl, by norm_num, room.size, room.wrap⟩
  exact h.contents_alloc ok alloc

theorem StoreInv.fades_deleteUnlink (h : StoreInv s lay) (run : s.deleteUnlink id = .ok s') :
    s.contents.Fades s'.contents := by
  obtain ⟨s₁, unlink, remove⟩ := bind_ran.1 run
  rw [contents_doItemRemove remove]
  cases linked : (s.metas id).linked with
  | true =>
    rw [h.contents_doItemUnlink linked unlink]
    exact Contents.fades_remove _ _
  | false =>
    rw [doItemUnlink_unlinked linked unlink]
    exact .refl _

/-! ## The header line -/

theorem StoreInv.fades_unlinkStale (h : StoreInv s lay) (run : s.unlinkStale comm key = .ok s') :
    s.contents.Fades s'.contents := by
  unfold Store.unlinkStale at run
  split_ifs at run
  · obtain ⟨⟨s₁, old⟩, get, run⟩ := bind_ran.1 run
    obtain ⟨look, -, -⟩ := h.contents_get get
    have first : s.contents.Fades s₁.contents := look ▸ Contents.fades_look _ key
    cases old with
    | none => exact pure_ran.1 run ▸ first
    | some id =>
      obtain ⟨-, -, -, inv₁, -⟩ := h.get_some get
      exact first.trans (StoreInv.fades_deleteUnlink inv₁ run)
  · exact .of_eq (congrArg Store.contents (pure_ran.1 run).symm)

theorem StoreInv.fades_reply {cas : ℕ} {exptime vlen : ℤ} {reply : Reply} (h : StoreInv s lay)
    (word : flags < 2 ^ 32) (room : ∀ n, updateRequest key flags vlen = some n → RoomFor s n)
    (run : s.processUpdateCommand comm key flags exptime vlen cas = .ok (s', .reply reply)) :
    s.contents.Fades s'.contents := by
  unfold Store.processUpdateCommand at run
  split_ifs at run with long range
  · obtain ⟨rfl, -⟩ := pair_ran.1 run
    exact .refl _
  · obtain ⟨rfl, -⟩ := pair_ran.1 run
    exact .refl _
  · obtain ⟨⟨s₁, it, succeed⟩, alloc, run⟩ := bind_ran.1 run
    have room := room _ (if_neg (not_or.2 ⟨long, range⟩))
    have ok : AllocOk s key flags (vlen + 2) :=
      ⟨not_lt.1 long, word, by omega, by omega, room.size, room.wrap⟩
    obtain ⟨lay₁, inv₁, -⟩ := h.logs ok alloc
    cases it with
    | some id => cases pure_ran.1 run
    | none =>
      obtain ⟨s₂, rest, run⟩ := bind_ran.1 run
      obtain ⟨rfl, -⟩ := pair_ran.1 run
      have fades := StoreInv.fades_unlinkStale inv₁ rest
      rwa [h.contents_alloc ok alloc] at fades

/-- A header line that gets an item: its record carries the flags, the expiry and the id of the
line. -/
theorem StoreInv.contents_upload {cas : ℕ} {exptime vlen : ℤ} (h : StoreInv s lay)
    (word : flags < 2 ^ 32) (room : ∀ n, updateRequest key flags vlen = some n → RoomFor s n)
    (run : s.processUpdateCommand comm key flags exptime vlen cas = .ok (s', .upload id)) :
    s'.contents = s.contents ∧ (s'.entryOf id).flags = flags ∧
      (s'.entryOf id).exptime = s.updateExptime exptime % 2 ^ 32 ∧
      (s'.entryOf id).cas = cas % 2 ^ 64 := by
  unfold Store.processUpdateCommand at run
  split_ifs at run with long range
  · cases pure_ran.1 run
  · cases pure_ran.1 run
  · obtain ⟨⟨s₁, it, succeed⟩, alloc, run⟩ := bind_ran.1 run
    have room := room _ (if_neg (not_or.2 ⟨long, range⟩))
    have ok : AllocOk s key flags (vlen + 2) :=
      ⟨not_lt.1 long, word, by omega, by omega, room.size, room.wrap⟩
    obtain ⟨lay₁, inv₁, -, metas, table, logs⟩ := h.logs ok alloc
    cases logs with
    | failed view =>
      obtain ⟨s₂, -, run⟩ := bind_ran.1 run
      cases pure_ran.1 run
    | tombstone r marked hkey hflags new view =>
      obtain ⟨s₂, -, run⟩ := bind_ran.1 run
      cases pure_ran.1 run
    | item newId r plain fresh new hkey suffix length expires view =>
      cases pure_ran.1 run
      have apart : ∀ k ∈ s₁.table, s₁.itemOf k ≠ r.off := fun k hk => by
        rw [table] at hk
        rw [Store.itemOf, metas k (h.busy hk)]
        exact new _ (h.recAt_mem hk)
      have recas := StoreInv.setCas inv₁ fresh.mem apart cas
      have cached := StoreInv.contents_setCas inv₁ fresh.mem apart cas
      rw [fresh.off] at recas cached
      have mem : r ∈ (s₁.setMem (itemSetCas s₁.log.mem (s₁.itemOf id) cas)).journal lay₁ := by
        rw [journal_of_view recas.2]
        exact fresh.mem
      have off : r.off = (s₁.setMem (itemSetCas s₁.log.mem (s₁.itemOf id) cas)).itemOf id := fresh.off
      obtain ⟨-, eflags, eexptime⟩ := entryOf_rec mem off
      refine ⟨cached.trans (h.contents_alloc ok alloc), ?_, eexptime.trans expires, ?_⟩
      · rw [eflags, suffix, strtoul_suffixText word]
      · have hasCas : has (flagsOf s₁.log.mem (s₁.itemOf id)) itemCas = true := by
          obtain ⟨b, -, off, -, flags⟩ := fresh.block
          rw [← off, flags]
          decide
        exact itemGetCas_itemSetCas hasCas

/-! ## Whole commands -/

/-- `touch` links at most a copy of the entry it found, with another expiry. -/
theorem StoreInv.turns_touch {P : Content → Prop} {expiry : ℤ} {reply : Reply} (h : StoreInv s lay)
    (room : ∀ n, s.touchRequest key = some n → RoomFor s n)
    (copy : ∀ e t, s.contents.visible key = some e → P { e with exptime := t })
    (run : s.processTouchCommand key expiry = .ok (s', reply)) : s.contents.Turns s'.contents key P := by
  unfold Store.processTouchCommand at run
  split_ifs at run with long
  · obtain ⟨rfl, -⟩ := pair_ran.1 run
    exact .inl (.refl _)
  · obtain ⟨⟨s₁, it⟩, touch, run⟩ := bind_ran.1 run
    obtain ⟨rfl, -⟩ := pair_ran.1 run
    rcases h.contents_doItemTouch (not_lt.1 long) room touch with ⟨-, eq⟩ | ⟨-, e, shown, eq⟩
    · exact .inl (eq ▸ Contents.fades_look _ key)
    · exact .inr ⟨_, copy e _ shown, .of_eq eq⟩

/-- `incr` and `decr` link at most a copy of the entry they found, with a number for its data. -/
theorem StoreInv.turns_arithmetic {P : Content → Prop} {incr : Bool} {delta : ℕ} {reply : Reply}
    (h : StoreInv s lay) (sound : (s.view lay).Sound)
    (room : ∀ id, s.find key = some id → 2 < nbytesInt s.log.mem (s.itemOf id) →
      ∀ n, s.deltaRequest key incr delta = some n → RoomFor s n)
    (copy : ∀ e value, s.contents.visible key = some e → P { e with data := decimal value ++ [13, 10] })
    (run : s.processArithmeticCommand key incr delta = .ok (s', reply)) :
    s.contents.Turns s'.contents key P := by
  unfold Store.processArithmeticCommand at run
  split_ifs at run with long
  · obtain ⟨rfl, -⟩ := pair_ran.1 run
    exact .inl (.refl _)
  · obtain ⟨⟨s₁, result⟩, add, run⟩ := bind_ran.1 run
    obtain ⟨rfl, -⟩ := pair_ran.1 run
    rcases h.contents_doAddDelta sound (not_lt.1 long) room add with
      ⟨-, eq⟩ | ⟨e, value, shown, -, eq⟩
    · exact .inl (eq ▸ Contents.fades_look _ key)
    · exact .inr ⟨_, copy e value shown, .of_eq eq⟩

end LogMemcached
