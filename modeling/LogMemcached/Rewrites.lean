import LogMemcached.StorageRuns

/-!
# Commands that write an item again

`touch` copies the item it finds through the log, and reports a missing item and a log without room
in the same way.  `incr` and `decr` read a number in place: one of at least 2^63 is taken for a
negative one if a minus sign follows anywhere before the next zero byte of the log.
-/

namespace LogMemcached

open ByteMem CText Tiling Fallible Store Transition

variable {s s₁ s' : Store} {lay : Layout} {key : Key} {id exptime : ℕ}

theorem StoreInv.find_short (h : StoreInv s lay) (sound : (s.view lay).Sound)
    (found : s.find key = some id) : key.length ≤ 250 := by
  obtain ⟨f, holds⟩ := h.holds sound found
  rw [← holds.key]
  exact (sound.proper holds.mem (by rw [holds.flags]; decide)).short

theorem visible_ne_none : s.contents.visible key ≠ none ↔ s.find key ≠ none := by
  rw [visible_eq]
  cases s.find key <;> simp

/-! ## Touch -/

/-- The log has room for the copy that `touch` makes. -/
def Store.touchServed (s : Store) (key : Key) : Bool :=
  (s.touchRequest key).all fun n => (memlogAllocRetry 3 s.log n).2.isSome

/-- `do_item_touch` returns an item exactly when it finds one and the log has room for its copy. -/
theorem StoreInv.touch_served {it : Option ℕ} (h : StoreInv s lay) (sound : (s.view lay).Sound)
    (found : s.find key = some id) (run : s.doItemTouch key exptime = .ok (s', it)) :
    it.isSome = s.touchServed key := by
  obtain ⟨f, holds⟩ := h.holds sound found
  obtain ⟨⟨s₁, old⟩, get, run⟩ := bind_ran.1 run
  obtain ⟨-, same, -⟩ := h.contents_get get
  rw [found] at same
  cases same
  obtain ⟨-, member, hkey, inv₁, table⟩ := h.get_some get
  obtain ⟨⟨s₂, new, succeed⟩, alloc, run⟩ := bind_ran.1 run
  have copied := slice_keyAt hkey
  have flags := table.clientFlags id
  have size := table.copySize id
  have served := doItemAlloc_served
    (show deletedBit (s₁.clientFlags id) = false by rw [flags, holds.client, holds.plain]) alloc
  rw [copied, inv₁.useCas] at served
  change (memlogAllocRetry 3 s₁.log (s₁.copySize id)).2.isSome = _ at served
  rw [size, table.log] at served
  rw [Store.touchServed, Store.touchRequest, found, Option.map_some, Option.all_some, served]
  cases new with
  | none =>
    obtain ⟨s₃, -, run⟩ := bind_ran.1 run
    cases pure_ran.1 run
    rfl
  | some newId =>
    obtain ⟨s₄, -, run⟩ := bind_ran.1 run
    obtain ⟨s₅, -, run⟩ := bind_ran.1 run
    obtain ⟨s₆, -, run⟩ := bind_ran.1 run
    cases pure_ran.1 run
    rfl

/-- What a client can ask of `touch`: a `TOUCHED` item has its value and flags and the new expiry,
`NOT_FOUND` means that there was none, and without room in the log the answer is an error and
nothing has changed. -/
structure TouchFaithful (s s' : Store) (key : Key) (expiry : ℤ) (reply : Reply) : Prop where
  touched : reply = .touched → ∃ e e', s.contents.visible key = some e ∧ s'.entry key = some e' ∧
    e'.data = e.data ∧ e'.flags = e.flags ∧ e'.exptime = s.realtime expiry % 2 ^ 32
  notFound : reply = .notFound ↔ s.contents.visible key = none
  failed : s.contents.visible key ≠ none → s.touchServed key = false →
    reply ≠ .touched ∧ reply ≠ .notFound ∧ s'.contents = s.contents ∧ s'.log = s.log

section

variable {ι : Type} [Fintype ι] [DecidableEq ι] {srv : Server ι} {settings : Settings}
  {limit now : ℕ} {as : List (Action ι)} {c : ι} {expiry : ℤ}

/-- `touch` is faithful exactly when the log has room for the copy of the item it finds. -/
theorem touch_faithful_iff (cas : settings.useCas = true) (large : 35 ≤ limit)
    (small : limit < 2 ^ 32)
    (run : Run (Server.Good fun _ _ => True) (.init settings limit now : Server ι) as srv)
    (ok : srv.StepOk (.touch c key expiry)) (free : srv.store.freelist ≠ []) :
    ∃ s' reply, srv.store.processTouchCommand key expiry = .ok (s', reply) ∧
      (TouchFaithful srv.store s' key expiry reply ↔
        key.length ≤ keyMaxLength ∧ srv.store.touchServed key = true) := by
  obtain ⟨lay, leaked, h, -⟩ := tended_of_run cas large small run
  by_cases long : key.length > keyMaxLength
  · refine ⟨srv.store, .badFormat, if_pos long, ?_⟩
    refine ⟨fun faithful => ?_, fun short => absurd short.1 (not_le.2 long)⟩
    -- no item has such a key, but the answer is not `NOT_FOUND`
    have absent : srv.store.find key = none := by
      by_contra present
      obtain ⟨id, found⟩ := Option.ne_none_iff_exists'.1 present
      exact absurd (h.inv.find_short h.sound found) (not_le.2 long)
    cases faithful.notFound.2 (visible_none absent)
  · have short : key.length ≤ 250 := not_lt.1 long
    obtain ⟨s', it, touch⟩ : ∃ s' it,
        srv.store.doItemTouch key (srv.store.realtime expiry) = .ok (s', it) :=
      h.counted.doItemTouch_ok h.inv ok.roomy short ok.fits fun _ _ _ => free
    refine ⟨s', if it.isSome then .touched else .notFound, ?_, ?_⟩
    · rw [Store.processTouchCommand, if_neg long, touch, ok_bind]
      rfl
    · rcases h.inv.contents_doItemTouch short ok.fits touch with
        ⟨rfl, look⟩ | ⟨some, e, shown, linked⟩
      · cases found : srv.store.find key with
        | none =>
          have absent := visible_none found
          refine ⟨fun _ => ⟨short, by rw [Store.touchServed, Store.touchRequest, found]; rfl⟩,
            fun _ => ⟨(fun done => by cases done), ⟨fun _ => absent, fun _ => rfl⟩,
              fun present => absurd absent present⟩⟩
        | some id =>
          -- the copy found no room
          have served := h.inv.touch_served h.sound found touch
          have present : srv.store.contents.visible key ≠ none := by
            rw [visible_ne_none, found]
            exact Option.some_ne_none id
          refine ⟨fun faithful => absurd (faithful.notFound.1 rfl) present, fun fits => ?_⟩
          rw [fits.2] at served
          cases served
      · obtain ⟨newId, rfl⟩ := Option.ne_none_iff_exists'.1 some
        have present : srv.store.contents.visible key ≠ none := by
          rw [shown]
          exact Option.some_ne_none e
        obtain ⟨id, found⟩ := Option.ne_none_iff_exists'.1 (visible_ne_none.1 present)
        have served : srv.store.touchServed key = true :=
          (h.inv.touch_served h.sound found touch).symm
        refine ⟨fun _ => ⟨short, served⟩, fun _ => ⟨fun _ => ?_, ⟨(fun done => by cases done),
          fun absent => absurd absent present⟩, fun _ failed => ?_⟩⟩
        · refine ⟨e, srv.store.contents.stamp
            { e with exptime := srv.store.realtime expiry % 2 ^ 32 }, shown, ?_, rfl, rfl, rfl⟩
          change s'.contents.entries key = _
          rw [linked]
          exact Function.update_self ..
        · rw [served] at failed
          cases failed

end

theorem touch_faithful_set : ∃ srv s' reply,
    Run (Server.Good fun _ _ => True) (.init started memlogDefaultSize 62)
      (storing () .set [97] 0 [120]) srv ∧
    srv.store.processTouchCommand [97] 100 = .ok (s', reply) ∧
    TouchFaithful srv.store s' [97] 100 reply := by
  have eval : ((storing () .set [97] 0 [120]).foldlM (fun (srv : Server Unit) a =>
      if srv.meets a then srv.next a else none) (.init started memlogDefaultSize 62)).map
      (fun srv => srv.meets (.touch () [97] 100) && !srv.store.freelist.isEmpty &&
        srv.store.touchServed [97]) = some true := by
    decide +kernel
  obtain ⟨srv, fold, eq⟩ := Option.map_eq_some_iff.1 eval
  simp only [Bool.and_eq_true, Bool.not_eq_true'] at eq
  obtain ⟨⟨meets, free⟩, served⟩ := eq
  have run := Server.good_of_meets fold
  obtain ⟨s', reply, ran, iff⟩ := touch_faithful_iff rfl (by decide) (by decide) run
    (Server.stepOk_of_meets meets) (fun none => by rw [none] at free; cases free)
  exact ⟨srv, s', reply, run, ran, iff.2 ⟨by decide, served⟩⟩

/-- `set a`, then a header line that takes all but the last bytes of the log. -/
def fullTrace : List (Action Unit) := storing () .set [97] 0 [120] ++ abandoned 1073741711

/-- A `touch` of an item that is there is answered `NOT_FOUND`. -/
theorem touch_without_room : ∃ srv s',
    Run Server.Step (.init started memlogDefaultSize 62 : Server Unit) fullTrace srv ∧
    srv.store.processTouchCommand [97] 100 = .ok (s', .notFound) ∧
    srv.store.contents.visible [97] ≠ none ∧ ¬TouchFaithful srv.store s' [97] 100 .notFound := by
  have eval : (fullTrace.foldlM Server.next (.init started memlogDefaultSize 62)).map
      (fun srv => decide ((srv.store.processTouchCommand [97] 100).toOption.map Prod.snd =
        some .notFound) && (srv.store.find [97]).isSome) = some true := by
    decide +kernel
  obtain ⟨srv, run, eq⟩ := Option.map_eq_some_iff.1 eval
  rw [Bool.and_eq_true, decide_eq_true_eq] at eq
  obtain ⟨⟨s', reply⟩, ran, rfl⟩ := Option.map_eq_some_iff.1 eq.1
  have present : srv.store.contents.visible [97] ≠ none := by
    rw [visible_ne_none]
    exact Option.isSome_iff_ne_none.1 eq.2
  exact ⟨srv, s', Server.run_of_next run, ok_of_toOption ran, present,
    fun faithful => present (faithful.notFound.1 rfl)⟩

/-! ## Arithmetic -/

/-- `safe_strtoull` on a printed number with its line end, followed by other bytes: a number of at
least 2^63 is refused for a minus sign anywhere before the next zero byte. -/
theorem safeStrtoull_decimal {v : ℕ} (small : v < 2 ^ 64) (tail : List UInt8) :
    safeStrtoull (decimal v ++ [13, 10] ++ tail) =
      if 2 ^ 63 ≤ v ∧ 45 ∈ tail.takeWhile (· != 0) then none else some v := by
  obtain ⟨ds, digits, -, below, -⟩ := decimal_eq_map v
  have plain : ∀ b ∈ decimal v, (b != 0) = true ∧ b ≠ 45 := by
    intro b mem
    rw [digits, List.mem_map] at mem
    obtain ⟨d, hd, rfl⟩ := mem
    have := below d hd
    interval_cases d <;> decide
  have text : (decimal v ++ [13, 10] ++ tail).takeWhile (· != 0) =
      decimal v ++ 13 :: 10 :: tail.takeWhile (· != 0) := by
    rw [List.append_assoc, List.takeWhile_append_of_pos fun b mem => (plain b mem).1]
    rfl
  have sign : 45 ∈ decimal v ++ 13 :: 10 :: tail.takeWhile (· != 0) ↔
      45 ∈ tail.takeWhile (· != 0) := by
    rw [List.mem_append]
    refine ⟨fun mem => ?_, fun mem => .inr (List.mem_cons_of_mem _ (List.mem_cons_of_mem _ mem))⟩
    rcases mem with mem | mem
    · exact absurd rfl (plain 45 mem).2
    · simpa using mem
  have scan : scanNumber (decimal v ++ 13 :: 10 :: tail.takeWhile (· != 0)) =
      some ⟨false, v, 13 :: 10 :: tail.takeWhile (· != 0)⟩ :=
    scanNumber_decimal v (by simp [isDigit])
  unfold safeStrtoull
  simp only [text, scan, Bool.false_eq_true, if_false]
  have blank : (13 :: 10 :: tail.takeWhile (· != 0)).head?.all isSpace = true := rfl
  rw [if_neg (not_le.2 small), if_pos blank]
  simp only [sign]

/-- The bytes from the end of an item's data to the end of the log. -/
def Store.textAfter (s : Store) (id : ℕ) : List UInt8 :=
  let stop := itemData s.log.mem (s.itemOf id) + (s.entryOf id).data.length
  slice s.log.mem stop (s.log.memLimit - stop)

def Store.deltaServed (s : Store) (key : Key) (incr : Bool) (delta : ℕ) : Bool :=
  (s.deltaRequest key incr delta).all fun n => (memlogAllocRetry 3 s.log n).2.isSome

/-- What `do_add_delta` reads is the data of the item and the bytes behind it. -/
theorem StoreInv.dataText_eq (h : StoreInv s lay) (member : id ∈ s.table) :
    s.dataText id = (s.entryOf id).data ++ s.textAfter id := by
  obtain ⟨b, hb, off⟩ := h.live id member
  have inside := (h.wholeRec hb).data_le
  have stop := h.log.stop_le hb
  rw [off] at inside
  have data : (s.entryOf id).data = dataOf s.log.mem (s.itemOf id) := rfl
  simp only [Store.dataText, Store.textAfter, data, dataOf, length_slice]
  rw [← slice_add]
  congr 1
  omega

/-- The number is stored if the log has room for it. -/
theorem Counted.deltaStore_ok {R : Multiset ℕ} {value : ℕ} (h : Counted s R) (inv : StoreInv s lay)
    (sound : (s.view lay).Sound) (roomy : s.Roomy 1) (get : s.doItemGet key = .ok (s₁, some id))
    (short : key.length ≤ 250) (small : value < 2 ^ 64)
    (room : RoomFor s (allocTotal true key.length (s.deltaFlags id) ((decimal value).length + 2)))
    (pool : s.Provides (allocTotal true key.length (s.deltaFlags id) ((decimal value).length + 2))) :
    ∃ s' result, s₁.deltaStore id value = .ok (s', result) ∧
      ((memlogAllocRetry 3 s.log (allocTotal true key.length (s.deltaFlags id)
        ((decimal value).length + 2))).2.isSome = true → result = .ok value) := by
  obtain ⟨found, member, hkey, inv₁, table⟩ := inv.get_some get
  obtain ⟨f, holds⟩ := inv.holds sound found
  have held := h.doItemGet_some inv roomy get
  have linked : (s₁.metas id).linked = true := (inv₁.linked id).1 member
  have many : (s₁.metas id).refcount > 1 := by
    have count := held.count id (inv₁.slabbed_of_linked linked)
    rw [linked, Multiset.singleton_add, Multiset.count_cons_self, Bool.toNat_true] at count
    omega
  have flags := table.deltaFlags id
  have ok := table.allocOk_delta hkey short small room
  have pool₁ := inv.provides_get get pool
  rw [← hkey, ← inv₁.useCas] at pool₁
  obtain ⟨s₂, new, succeed, alloc⟩ := doItemAlloc_ok (fun _ => pool₁)
    (exptimeOf s₁.log.mem (s₁.itemOf id))
  have taken := doItemAlloc_served
    (show deletedBit (s.deltaFlags id) = false by rw [holds.delta, holds.plain]) alloc
  rw [inv₁.useCas, hkey, table.log] at taken
  have asked : s₁.doItemAlloc (keyOf s₁.log.mem (s₁.itemOf id))
      (strtoul ((suffixOf s₁.log.mem (s₁.itemOf id)).drop 1) % 2 ^ 32)
      (exptimeOf s₁.log.mem (s₁.itemOf id)) ((decimal value).length + 2) = .ok (s₂, new, succeed) := by
    rw [show strtoul ((suffixOf s₁.log.mem (s₁.itemOf id)).drop 1) % 2 ^ 32 = s.deltaFlags id from flags]
    exact alloc
  unfold Store.deltaStore
  dsimp only
  rw [if_pos many, asked, ok_bind]
  cases new with
  | none =>
    have after := ((Moves.alloc inv₁ ok alloc).1 _ (by rw [zero_add]; exact held)).1
    rw [Option.elim_none, zero_add, Multiset.singleton_add] at after
    obtain ⟨s₃, remove⟩ := after.doItemRemove_ok
    refine ⟨s₃, .eom, ?_, fun served => ?_⟩
    · dsimp only
      rw [remove, ok_bind]
      rfl
    · rw [taken] at served
      cases served
  | some newId =>
    obtain ⟨lay', q, refill, -⟩ := StoreInv.refill inv₁ member ok alloc
      (fun lay₁ q inv fresh total _ => ⟨_, fresh.write_data inv _ (decimal value ++ [13, 10]) le_rfl (by
        rw [total, List.length_append]
        simp only [List.length_cons, List.length_nil]
        omega)⟩)
    obtain ⟨s₃, replace, counted₃⟩ := refill.replace_ok held
    have counted₄ (cas : ℕ) : Counted ((s₃.setMem (itemSetCas s₃.log.mem (s₁.itemOf id)
        cas)).markItemStored newId) (newId ::ₘ ({id} + R)) := by
      have moves : Moves s₃ 0 ((s₃.setMem (itemSetCas s₃.log.mem (s₁.itemOf id)
        cas)).markItemStored newId) 0 := .of_metas rfl rfl
      have := (moves _ (by rw [zero_add]; exact counted₃)).1
      rwa [zero_add, Multiset.singleton_add] at this
    have finished (cas : ℕ) : ∃ s₅ s₆, ((s₃.setMem (itemSetCas s₃.log.mem (s₁.itemOf id)
        cas)).markItemStored newId).doItemRemove newId = .ok s₅ ∧ s₅.doItemRemove id = .ok s₆ := by
      obtain ⟨s₅, remove⟩ := (counted₄ cas).doItemRemove_ok
      have counted₅ := (counted₄ cas).doItemRemove remove
      rw [Multiset.singleton_add] at counted₅
      obtain ⟨s₆, remove'⟩ := counted₅.doItemRemove_ok
      exact ⟨s₅, s₆, remove, remove'⟩
    obtain ⟨s₅, s₆, remove, remove'⟩ := finished
      (if s₃.settings.useCas then itemGetCas s₃.log.mem (s₃.itemOf newId) else 0)
    refine ⟨s₆, .ok value, ?_, fun _ => rfl⟩
    dsimp only
    rw [replace, ok_bind, remove, ok_bind, remove', ok_bind]
    rfl

def Store.WellKept (s : Store) : Prop :=
  ∃ lay R, StoreInv s lay ∧ (s.view lay).Sound ∧ Counted s R

theorem wellKept_of_run {ι : Type} [Fintype ι] [DecidableEq ι] {srv : Server ι}
    {settings : Settings} {limit now : ℕ} {as : List (Action ι)} (cas : settings.useCas = true)
    (large : 35 ≤ limit) (small : limit < 2 ^ 32)
    (run : Run (Server.Good fun _ _ => True) (.init settings limit now : Server ι) as srv) :
    srv.store.WellKept := by
  obtain ⟨lay, leaked, h, -⟩ := tended_of_run cas large small run
  exact ⟨lay, _, h.inv, h.sound, h.counted⟩

section

variable {incr : Bool} {delta v : ℕ}

/-- The key has an item whose data are a number, and the log has room for the new one. -/
structure DeltaReady (s : Store) (key : Key) (incr : Bool) (delta v : ℕ) : Prop where
  kept : s.WellKept
  shown : (s.contents.visible key).map Content.data = some (decimal v ++ [13, 10])
  small : v < 2 ^ 64
  roomy : s.Roomy 1
  fits : ∀ n, s.deltaRequest key incr delta = some n → RoomFor s n
  served : s.deltaServed key incr delta = true
  free : s.freelist ≠ []

/-- A minus sign stands between the item's data and the next zero byte of the log. -/
def Store.signFollows (s : Store) (key : Key) : Bool :=
  (s.find key).any fun id => ((s.textAfter id).takeWhile (· != 0)).contains 45

/-- The value an `incr` or a `decr` of the protocol leaves. -/
def nextValue (incr : Bool) (v delta : ℕ) : ℕ := if incr then (v + delta) % 2 ^ 64 else v - delta

theorem deltaValue_eq : deltaValue incr v delta = nextValue incr v delta := by
  unfold deltaValue nextValue
  split_ifs <;> omega

/-- The number is answered, and stored as text with the item's flags and expiry. -/
structure DeltaDone (s s' : Store) (key : Key) (incr : Bool) (delta v : ℕ)
    (result : DeltaResult) : Prop where
  answer : result = .ok (nextValue incr v delta)
  stored : ∃ e e', s.contents.visible key = some e ∧ s'.entry key = some e' ∧
    e'.data = decimal (nextValue incr v delta) ++ [13, 10] ∧ e'.flags = e.flags ∧
    e'.exptime = e.exptime

/-- `do_add_delta` answers a number with the new one, or refuses it for a sign behind the item. -/
theorem DeltaReady.answer (h : DeltaReady s key incr delta v) :
    ∃ s', s.doAddDelta key incr delta none = .ok (s',
      if 2 ^ 63 ≤ v ∧ s.signFollows key = true then .nonNumeric
      else .ok (nextValue incr v delta)) := by
  obtain ⟨lay, R, inv, sound, counted⟩ := h.kept
  obtain ⟨e, shown, data⟩ := Option.map_eq_some_iff.1 h.shown
  rw [visible_eq] at shown
  obtain ⟨id, found, rfl⟩ := Option.map_eq_some_iff.1 shown
  obtain ⟨f, holds⟩ := inv.holds sound found
  have short : key.length ≤ 250 := inv.find_short sound found
  obtain ⟨s₁, it, get⟩ : ∃ s₁ it, s.doItemGet key = .ok (s₁, it) :=
    counted.doItemGet_ok inv h.roomy
  obtain ⟨-, same, -⟩ := inv.contents_get get
  rw [found] at same
  subst same
  obtain ⟨-, member, hkey, inv₁, table⟩ := inv.get_some get
  have held := counted.doItemGet_some inv h.roomy get
  have large : ¬nbytesInt s₁.log.mem (s₁.itemOf id) ≤ 2 := by
    obtain ⟨ds, digits, nonempty, -, -⟩ := decimal_eq_map v
    have positive := List.length_pos_iff.2 nonempty
    have length := congrArg List.length data
    change (s.recAt id).data.length = _ at length
    rw [List.length_append, digits, List.length_map] at length
    simp only [List.length_cons, List.length_nil] at length
    rw [table.log, table.item, (inv.nbytesInt_recAt holds.mem rfl).1]
    omega
  have text : s₁.dataText id = decimal v ++ [13, 10] ++ s.textAfter id := by
    rw [← data, ← inv.dataText_eq (table.table ▸ member), Store.dataText, Store.dataText, table.log,
      table.item]
  have sign : s.signFollows key = true ↔ 45 ∈ (s.textAfter id).takeWhile (· != 0) := by
    simp only [Store.signFollows, found, Option.any_some, List.contains_eq_mem, decide_eq_true_eq]
  have parse := safeStrtoull_decimal h.small (s.textAfter id)
  rw [Store.doAddDelta, get, ok_bind]
  dsimp only
  rw [if_neg large, if_neg (by simp), text, parse]
  by_cases refused : 2 ^ 63 ≤ v ∧ s.signFollows key = true
  · rw [if_pos refused, if_pos ⟨refused.1, sign.1 refused.2⟩]
    rw [Multiset.singleton_add] at held
    obtain ⟨s₂, remove⟩ := held.doItemRemove_ok
    exact ⟨s₂, by dsimp only; rw [remove, ok_bind]; rfl⟩
  · have number : ¬(2 ^ 63 ≤ v ∧ 45 ∈ (s.textAfter id).takeWhile (· != 0)) :=
      fun both => refused ⟨both.1, sign.2 both.2⟩
    have read : safeStrtoull (s.dataText id) = some v := by
      rw [inv.dataText_eq (table.table ▸ member), data, parse, if_neg number]
    have request : s.deltaRequest key incr delta = some (allocTotal true key.length (s.deltaFlags id)
        ((decimal (deltaValue incr v delta)).length + 2)) := by
      simp only [Store.deltaRequest, found, Option.bind_some, read, Option.map_some]
    have served := h.served
    rw [Store.deltaServed, request, Option.all_some] at served
    rw [if_neg refused, if_neg number, ← deltaValue_eq]
    obtain ⟨s', result, run, stored⟩ := counted.deltaStore_ok inv sound h.roomy get short
      (deltaValue_lt h.small) (h.fits _ request) fun _ => h.free
    exact ⟨s', stored served ▸ run⟩

theorem DeltaReady.done (h : DeltaReady s key incr delta v)
    (run : s.doAddDelta key incr delta none = .ok (s', .ok (nextValue incr v delta))) :
    DeltaDone s s' key incr delta v (.ok (nextValue incr v delta)) := by
  obtain ⟨lay, R, inv, sound, -⟩ := h.kept
  obtain ⟨e, shown, -⟩ := Option.map_eq_some_iff.1 h.shown
  obtain ⟨id, found⟩ := Option.ne_none_iff_exists'.1 (visible_ne_none.1 (by
    rw [shown]
    exact Option.some_ne_none e))
  refine ⟨rfl, ?_⟩
  rcases inv.contents_doAddDelta sound (inv.find_short sound found) (fun _ _ _ => h.fits) run with
    ⟨other, -⟩ | ⟨e, value, shown, same, linked⟩
  · exact absurd rfl (other _)
  · cases same
    refine ⟨e, s.contents.stamp { e with data := decimal (nextValue incr v delta) ++ [13, 10] }, shown,
      ?_, rfl, rfl, rfl⟩
    change s'.contents.entries key = _
    rw [linked]
    exact Function.update_self ..

/-- `incr` and `decr` do to a number what the protocol says exactly when it is below 2^63 or no
minus sign follows the item, and two stores with the same number give the same answer exactly when
it is below 2^63 or they agree in this. -/
theorem arithmetic_alone_iff {t : Store} (hs : DeltaReady s key incr delta v)
    (ht : DeltaReady t key incr delta v) :
    ∃ s' answer t' answer', s.doAddDelta key incr delta none = .ok (s', answer) ∧
      t.doAddDelta key incr delta none = .ok (t', answer') ∧
      (DeltaDone s s' key incr delta v answer ↔ v < 2 ^ 63 ∨ s.signFollows key = false) ∧
      (answer = answer' ↔ v < 2 ^ 63 ∨ s.signFollows key = t.signFollows key) := by
  obtain ⟨s', first⟩ := hs.answer
  obtain ⟨t', second⟩ := ht.answer
  refine ⟨s', _, t', _, first, second, ?_, ?_⟩
  · by_cases refused : 2 ^ 63 ≤ v ∧ s.signFollows key = true
    · rw [if_pos refused]
      refine ⟨fun done => ?_, fun free => ?_⟩
      · cases done.answer
      · rcases free with below | free
        · exact absurd refused.1 (not_le.2 below)
        · rw [refused.2] at free
          cases free
    · rw [if_neg refused] at first ⊢
      refine ⟨fun _ => ?_, fun _ => hs.done first⟩
      rw [not_and_or, not_le, Bool.not_eq_true] at refused
      exact refused
  · by_cases below : v < 2 ^ 63
    · simp only [not_le.2 below, false_and, if_false, below, true_or]
    · rw [not_lt] at below
      cases s.signFollows key <;> cases t.signFollows key <;>
        simp [below]

end

/-- The conditions of `DeltaReady` on a state that a run has reached, in a form to evaluate. -/
def Server.deltaReady (srv : Server Unit) (key : Key) (incr : Bool) (delta v : ℕ) : Bool :=
  srv.meets (.arithmetic () key incr delta) && !srv.store.freelist.isEmpty &&
    srv.store.deltaServed key incr delta &&
    decide ((srv.store.find key).map (fun id => (srv.store.entryOf id).data) =
      some (decimal v ++ [13, 10]))

theorem deltaReady_of_meets {srv : Server Unit} {as : List (Action Unit)} {incr : Bool} {delta v : ℕ}
    (eval : as.foldlM (fun srv a => if srv.meets a then srv.next a else none)
      (.init started memlogDefaultSize 62) = some srv)
    (small : v < 2 ^ 64) (ready : srv.deltaReady key incr delta v = true) :
    DeltaReady srv.store key incr delta v := by
  simp only [Server.deltaReady, Bool.and_eq_true, Bool.not_eq_true', decide_eq_true_eq] at ready
  obtain ⟨⟨⟨meets, free⟩, served⟩, shown⟩ := ready
  have ok := Server.stepOk_of_meets meets
  refine ⟨wellKept_of_run rfl (by decide) (by decide) (Server.good_of_meets eval), ?_, small, ok.roomy,
    ok.fits, served, fun none => by rw [none] at free; cases free⟩
  rw [visible_eq, Option.map_map]
  exact shown

/-- The value 2^63 under `a`. -/
def numberTrace : List (Action Unit) := storing () .set [97] 0 (decimal (2 ^ 63))

/-- The value 2^63 under `a`, and then the item `b` with an expiry of 239 seconds. -/
def signTrace : List (Action Unit) :=
  numberTrace ++ [.update () .set [98] 0 239 1 0, .recv () [120, 13, 10], .complete ()]

theorem arithmetic_alone_large : ∃ s t s' answer t' answer',
    DeltaReady s [97] true 1 (2 ^ 63) ∧ DeltaReady t [97] true 1 (2 ^ 63) ∧
    s.doAddDelta [97] true 1 none = .ok (s', answer) ∧
    t.doAddDelta [97] true 1 none = .ok (t', answer') ∧
    DeltaDone s s' [97] true 1 (2 ^ 63) answer ∧ answer ≠ answer' := by
  have first : (numberTrace.foldlM (fun (srv : Server Unit) a =>
      if srv.meets a then srv.next a else none) (.init started memlogDefaultSize 62)).map
      (fun srv => srv.deltaReady [97] true 1 (2 ^ 63) && !srv.store.signFollows [97]) =
        some true := by
    decide +kernel
  have second : (signTrace.foldlM (fun (srv : Server Unit) a =>
      if srv.meets a then srv.next a else none) (.init started memlogDefaultSize 62)).map
      (fun srv => srv.deltaReady [97] true 1 (2 ^ 63) && srv.store.signFollows [97]) =
        some true := by
    decide +kernel
  obtain ⟨srv, run, eq⟩ := Option.map_eq_some_iff.1 first
  obtain ⟨srv', run', eq'⟩ := Option.map_eq_some_iff.1 second
  rw [Bool.and_eq_true, Bool.not_eq_true'] at eq
  rw [Bool.and_eq_true] at eq'
  have hs := deltaReady_of_meets run (by norm_num) eq.1
  have ht := deltaReady_of_meets run' (by norm_num) eq'.1
  obtain ⟨s', answer, t', answer', ran, ran', done, same⟩ := arithmetic_alone_iff hs ht
  refine ⟨srv.store, srv'.store, s', answer, t', answer', hs, ht, ran, ran', done.2 (.inr eq.2), ?_⟩
  rw [Ne, same, eq.2, eq'.2]
  norm_num

/-- The item `b`, whose expiry begins with the byte of a minus sign, makes `a` non-numeric. -/
theorem arithmetic_reads_neighbour : ∃ srv s',
    Run Server.Step (.init started memlogDefaultSize 62 : Server Unit) signTrace srv ∧
    (srv.store.contents.visible [97]).map Content.data = some (decimal (2 ^ 63) ++ [13, 10]) ∧
    srv.store.doAddDelta [97] true 1 none = .ok (s', .nonNumeric) := by
  have eval : (signTrace.foldlM Server.next (.init started memlogDefaultSize 62)).map
      (fun srv => decide ((srv.store.find [97]).map (fun id => (srv.store.entryOf id).data) =
          some (decimal (2 ^ 63) ++ [13, 10])) &&
        decide ((srv.store.doAddDelta [97] true 1 none).toOption.map Prod.snd =
          some .nonNumeric)) = some true := by
    decide +kernel
  obtain ⟨srv, run, eq⟩ := Option.map_eq_some_iff.1 eval
  simp only [Bool.and_eq_true, decide_eq_true_eq] at eq
  obtain ⟨⟨s', result⟩, ran, rfl⟩ := Option.map_eq_some_iff.1 eq.2
  refine ⟨srv, s', Server.run_of_next run, ?_, ok_of_toOption ran⟩
  rw [visible_eq, Option.map_map]
  exact eq.1

end LogMemcached
