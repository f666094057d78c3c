import Cildec.Lib.Segments
import Cildec.Tables.Stream

/-!
# What the stream header declares

The header fields and the row counts by their place in the stream, and the proof
that `readStreamHeader` returns those (`readStreamHeader_spec`): the count of a
table stands after the counts of the smaller ids whose `Valid` bit is set.
-/

namespace Cildec

open Wire

/-- The `Valid` bit vector of a table stream. -/
def streamValid (data : List UInt8) : Nat := leNat ((data.drop 8).take 8)

/-- The `HeapSizes` byte of a table stream. -/
def streamHeapSizes (data : List UInt8) : UInt8 := data.getD 6 0

/-- The bytes the row counts spend on a slot. -/
def slotSize (valid slot : Nat) : Nat := if valid.testBit slot then 4 else 0

/-- The number of rows the stream header declares for a table. -/
def declaredRows (data : List UInt8) (table : TableId) : Nat :=
  if (streamValid data).testBit table.toU8 then
    leNat ((data.drop (24 + offsetOf (slotSize (streamValid data)) (List.range 64)
      table.toU8)).take 4)
  else 0

/-- The number of bytes of the optional dword after the row counts. -/
def extraDataSize (heapSizes : UInt8) : Nat := if heapSizes &&& 0x40 != 0 then 4 else 0

/-- Where the stream header, the row counts and the optional dword end. -/
def headerEnd (data : List UInt8) : Nat :=
  24 + ((List.range 64).map (slotSize (streamValid data))).sum +
    extraDataSize (streamHeapSizes data)

/-! ## Row counts -/

/-- The bytes of the row count of a slot. -/
def countBytes (valid : Nat) (counts : Nat → UInt32) (slot : Nat) : List UInt8 :=
  if valid.testBit slot then leBytes 4 (counts slot).toNat else []

@[simp] theorem countBytes_length (valid : Nat) (counts : Nat → UInt32) (slot : Nat) :
    (countBytes valid counts slot).length = slotSize valid slot := by
  unfold countBytes slotSize
  split <;> simp

theorem countBytes_of_testBit {valid slot : Nat} (counts : Nat → UInt32)
    (h : valid.testBit slot) : countBytes valid counts slot = leBytes 4 (counts slot).toNat :=
  if_pos h

/-- The counts of the tables among `slots`, over those of `before`. -/
def countsAt (valid : Nat) (counts : Nat → UInt32) (slots : List Nat)
    (before : TableId → Nat) (table : TableId) : Nat :=
  if table.toU8 ∈ slots ∧ valid.testBit table.toU8 then (counts table.toU8).toNat
  else before table

/-- Slots that hold the count of their table, where only tables without rows are unmarked. -/
theorem countsAt_eq {valid : Nat} {slots : Nat → UInt32} {count : TableId → Nat}
    (hslots : ∀ table : TableId, (slots table.toU8).toNat = count table)
    (hvalid : ∀ table, count table ≠ 0 → valid.testBit table.toU8) (table : TableId) :
    countsAt valid slots (List.range 64) (fun _ => 0) table = count table := by
  have hmem : table.toU8 ∈ List.range 64 := List.mem_range.mpr table.toU8_lt
  rw [countsAt]
  split
  · exact hslots table
  · rename_i hno
    by_contra hne
    exact hno ⟨hmem, hvalid table (Ne.symm hne)⟩

theorem countBytes_update_of_not_mem {valid slot : Nat} {counts : Nat → UInt32} {v : UInt32}
    {slots : List Nat} (h : slot ∉ slots) :
    slots.flatMap (countBytes valid (Function.update counts slot v)) =
      slots.flatMap (countBytes valid counts) := by
  refine List.flatMap_congr fun k hk => ?_
  have hne : k ≠ slot := fun he => h (he ▸ hk)
  simp [countBytes, Function.update_of_ne hne]

/-- Reading the counts reads one dword per set bit and changes the counts of those
tables only. -/
theorem reads_readRowCounts (s : Strictness) (valid : Nat) :
    ∀ (slots : List Nat) (before : TableId → Nat) (ds : List Diagnostic), slots.Nodup →
      Reads (readRowCounts s valid slots before ds) (fun bs result =>
        ∃ counts : Nat → UInt32, bs = slots.flatMap (countBytes valid counts) ∧
          result.1 = countsAt valid counts slots before)
  | [], before, ds, _ => (Reads.pure (before, ds)).mono fun bs result h => by
      obtain ⟨rfl, rfl⟩ := h
      exact ⟨fun _ => 0, rfl, by funext table; simp [countsAt]⟩
  | slot :: slots, before, ds, hnodup => by
      obtain ⟨hnotin, hnodup'⟩ := List.nodup_cons.mp hnodup
      intro r result r' hrun
      unfold readRowCounts at hrun
      split at hrun
      · rename_i hbit
        obtain ⟨_, _, hget, hrun⟩ := run_bind_ok_iff.mp hrun
        cases hget
        obtain ⟨count, mid, hcount, hrun⟩ := run_bind_ok_iff.mp hrun
        obtain ⟨cs, hcs, rfl, rfl⟩ := Reader.reads_u32 _ _ _ hcount
        -- four bytes are read for a present slot in any case, but only that of a known table is
        -- kept
        have hrest : ∀ {before' : TableId → Nat} {ds'},
            (readRowCounts s valid slots before' ds').run
              (Wire.advance (leBytes 4 count.toNat).length r) = .ok result r' →
            (∀ table, before' table =
              if table.toU8 = slot then count.toNat else before table) →
            ∃ bs, Wire.rest r = bs ++ Wire.rest r' ∧ r' = Wire.advance bs.length r ∧
              ∃ counts : Nat → UInt32,
                bs = (slot :: slots).flatMap (countBytes valid counts) ∧
                result.1 = countsAt valid counts (slot :: slots) before := by
          intro before' ds' hrun' hbefore
          obtain ⟨bs, hbs, rfl, counts, rfl, hcounts⟩ :=
            reads_readRowCounts s valid slots before' ds' hnodup' _ _ _ hrun'
          refine ⟨leBytes 4 count.toNat ++ slots.flatMap (countBytes valid counts), ?_, ?_,
            Function.update counts slot count, ?_, ?_⟩
          · rw [hcs, List.append_assoc, ← hbs]
          · rw [Cursor.advance_advance, List.length_append]
          · rw [List.flatMap_cons, countBytes_update_of_not_mem hnotin,
              countBytes_of_testBit _ hbit, Function.update_self]
          · rw [hcounts]
            funext table
            by_cases htable : table.toU8 = slot
            · subst htable
              simp [countsAt, hnotin, hbit, hbefore]
            · simp [countsAt, htable, hbefore]
        split at hrun
        · rename_i id hid
          have hslot := TableId.toU8_of_fromU8 hid
          refine hrest hrun fun table => ?_
          by_cases htable : table = id
          · subst htable
            rw [if_pos hslot, Function.update_self]
          · rw [if_neg (fun he => htable (TableId.toU8_injective (he.trans hslot.symm))),
              Function.update_of_ne htable]
        · rename_i hnone
          split at hrun
          · cases hrun
          · refine hrest hrun fun table => ?_
            rw [if_neg]
            rintro rfl
            rw [TableId.fromU8_toU8] at hnone
            cases hnone
      · rename_i hbit
        obtain ⟨bs, hbs, rfl, counts, rfl, hcounts⟩ :=
          reads_readRowCounts s valid slots before ds hnodup' _ _ _ hrun
        refine ⟨_, hbs, rfl, counts, ?_, ?_⟩
        · rw [List.flatMap_cons, countBytes, if_neg hbit, List.nil_append]
        · rw [hcounts]
          funext table
          by_cases htable : table.toU8 = slot
          · subst htable
            simp [countsAt, hbit]
          · simp [countsAt, htable]

/-- The count of a slot stands after the counts of the smaller slots. -/
theorem take_drop_countBytes {valid slot n : Nat} {pre : List UInt8} (hpre : pre.length = n)
    (counts : Nat → UInt32) (tl : List UInt8) {slots : List Nat} (hmem : slot ∈ slots)
    (hbit : valid.testBit slot) :
    ((pre ++ (slots.flatMap (countBytes valid counts) ++ tl)).drop
      (n + offsetOf (slotSize valid) slots slot)).take 4 = leBytes 4 (counts slot).toNat := by
  obtain ⟨front, post, hsplit, hlen⟩ := flatMap_split (countBytes valid counts) hmem
  rw [countBytes_of_testBit counts hbit] at hsplit
  have hoffset : offsetOf (slotSize valid) slots slot = front.length := by
    rw [hlen]
    exact offsetOf_congr fun u _ => (countBytes_length valid counts u).symm
  have hassoc : pre ++ (front ++ (leBytes 4 (counts slot).toNat ++ post) ++ tl) =
      (pre ++ front) ++ (leBytes 4 (counts slot).toNat ++ (post ++ tl)) := by
    simp only [List.append_assoc]
  rw [hsplit, hassoc]
  exact take_drop_append (by rw [List.length_append, hpre, hoffset]) (leBytes_length _ _)

/-! ## The whole header -/

/-- The fields a header is written from. -/
structure RawHeader where
  reserved : UInt32
  majorVersion : UInt8
  minorVersion : UInt8
  heapSizes : UInt8
  reserved2 : UInt8
  valid : UInt64
  sorted : UInt64
  counts : Nat → UInt32
  extra : Option UInt32
  extra_isSome : extra.isSome = (heapSizes &&& 0x40 != 0)

namespace RawHeader

/-- The 24 fixed bytes. -/
def fixedBytes (raw : RawHeader) : List UInt8 :=
  leBytes 4 raw.reserved.toNat ++ ([raw.majorVersion] ++ ([raw.minorVersion] ++
    ([raw.heapSizes] ++ ([raw.reserved2] ++
      (leBytes 8 raw.valid.toNat ++ leBytes 8 raw.sorted.toNat)))))

/-- The row counts. -/
def countsBytes (raw : RawHeader) : List UInt8 :=
  (List.range 64).flatMap (countBytes raw.valid.toNat raw.counts)

/-- The optional dword. -/
def extraBytes (raw : RawHeader) : List UInt8 := raw.extra.elim [] fun v => leBytes 4 v.toNat

/-- The bytes of a header. -/
def bytes (raw : RawHeader) : List UInt8 :=
  raw.fixedBytes ++ (raw.countsBytes ++ raw.extraBytes)

/-- What a header declares. -/
def header (raw : RawHeader) : StreamHeader where
  majorVersion := raw.majorVersion
  minorVersion := raw.minorVersion
  heapSizes := raw.heapSizes
  valid := raw.valid.toNat
  declaredSorted := raw.sorted.toNat
  rowCounts := countsAt raw.valid.toNat raw.counts (List.range 64) fun _ => 0
  extraData := raw.extra

@[simp] theorem fixedBytes_length (raw : RawHeader) : raw.fixedBytes.length = 24 := by
  simp [fixedBytes]

theorem countsBytes_length (raw : RawHeader) :
    raw.countsBytes.length = ((List.range 64).map (slotSize raw.valid.toNat)).sum := by
  rw [countsBytes, List.length_flatMap,
    List.map_congr_left fun u _ => countBytes_length _ raw.counts u]

theorem extraBytes_length (raw : RawHeader) :
    raw.extraBytes.length = extraDataSize raw.heapSizes := by
  rw [extraBytes, extraDataSize, ← raw.extra_isSome]
  cases raw.extra <;> simp

theorem bytes_length (raw : RawHeader) :
    raw.bytes.length = 24 + ((List.range 64).map (slotSize raw.valid.toNat)).sum +
      extraDataSize raw.heapSizes := by
  rw [bytes, List.length_append, List.length_append, fixedBytes_length, countsBytes_length,
    extraBytes_length, Nat.add_assoc]

end RawHeader

/-- The header of a table stream, by the place of its fields. -/
def declaredHeader (data : List UInt8) : StreamHeader where
  majorVersion := data.getD 4 0
  minorVersion := data.getD 5 0
  heapSizes := streamHeapSizes data
  valid := streamValid data
  declaredSorted := leNat ((data.drop 16).take 8)
  rowCounts := declaredRows data
  extraData :=
    if streamHeapSizes data &&& 0x40 != 0 then
      some (UInt32.ofNat (leNat ((data.drop (headerEnd data - 4)).take 4)))
    else none

section Declared

variable (raw : RawHeader) (tl : List UInt8)

theorem streamValid_bytes : streamValid (raw.bytes ++ tl) = raw.valid.toNat := by
  have hsplit : raw.bytes ++ tl =
      (leBytes 4 raw.reserved.toNat ++
        [raw.majorVersion, raw.minorVersion, raw.heapSizes, raw.reserved2]) ++
        (leBytes 8 raw.valid.toNat ++ (leBytes 8 raw.sorted.toNat ++
          (raw.countsBytes ++ (raw.extraBytes ++ tl)))) := by
    simp [RawHeader.bytes, RawHeader.fixedBytes]
  rw [streamValid, hsplit, take_drop_append (by simp) (leBytes_length _ _)]
  exact leNat_leBytes raw.valid.toNat_lt

theorem streamHeapSizes_bytes : streamHeapSizes (raw.bytes ++ tl) = raw.heapSizes := by
  simp [streamHeapSizes, RawHeader.bytes, RawHeader.fixedBytes, leBytes]

theorem headerEnd_bytes : headerEnd (raw.bytes ++ tl) = raw.bytes.length := by
  rw [headerEnd, streamValid_bytes, streamHeapSizes_bytes, raw.bytes_length]

theorem declaredRows_bytes : declaredRows (raw.bytes ++ tl) = raw.header.rowCounts := by
  funext table
  have hmem : table.toU8 ∈ List.range 64 := List.mem_range.mpr table.toU8_lt
  have hcounts : raw.header.rowCounts table =
      countsAt raw.valid.toNat raw.counts (List.range 64) (fun _ => 0) table := rfl
  rw [declaredRows, streamValid_bytes, hcounts]
  by_cases hbit : raw.valid.toNat.testBit table.toU8
  · rw [if_pos hbit, countsAt, if_pos ⟨hmem, hbit⟩, RawHeader.bytes, List.append_assoc,
      List.append_assoc, RawHeader.countsBytes,
      take_drop_countBytes raw.fixedBytes_length _ _ hmem hbit]
    exact leNat_leBytes (raw.counts table.toU8).toNat_lt
  · rw [if_neg hbit, countsAt, if_neg fun hand => hbit hand.2]

theorem extraData_bytes : (declaredHeader (raw.bytes ++ tl)).extraData = raw.extra := by
  have hlen := raw.extraBytes_length
  have hsome := raw.extra_isSome
  simp only [declaredHeader, streamHeapSizes_bytes, headerEnd_bytes, ← hsome]
  cases hextra : raw.extra with
  | none => rfl
  | some v =>
      have hbytes : raw.extraBytes = leBytes 4 v.toNat := by rw [RawHeader.extraBytes, hextra]; rfl
      have hsplit : raw.bytes ++ tl =
          (raw.fixedBytes ++ raw.countsBytes) ++ (leBytes 4 v.toNat ++ tl) := by
        simp [RawHeader.bytes, hbytes]
      have hpre : (raw.fixedBytes ++ raw.countsBytes).length = raw.bytes.length - 4 := by
        simp [RawHeader.bytes, hbytes]
        omega
      rw [hsplit, take_drop_append hpre (leBytes_length _ _), ofNat_leNat_leBytes_u32]
      rfl

/-- The bytes of a header declare it, whatever follows them. -/
theorem declaredHeader_bytes : declaredHeader (raw.bytes ++ tl) = raw.header := by
  have hextra := extraData_bytes raw tl
  have hsorted : leNat (((raw.bytes ++ tl).drop 16).take 8) = raw.sorted.toNat := by
    have hsplit : raw.bytes ++ tl =
        (leBytes 4 raw.reserved.toNat ++
          [raw.majorVersion, raw.minorVersion, raw.heapSizes, raw.reserved2] ++
          leBytes 8 raw.valid.toNat) ++
          (leBytes 8 raw.sorted.toNat ++ (raw.countsBytes ++ (raw.extraBytes ++ tl))) := by
      simp [RawHeader.bytes, RawHeader.fixedBytes]
    rw [hsplit, take_drop_append (by simp) (leBytes_length _ _)]
    exact leNat_leBytes raw.sorted.toNat_lt
  have hmajor : (raw.bytes ++ tl).getD 4 0 = raw.majorVersion := by
    simp [RawHeader.bytes, RawHeader.fixedBytes, leBytes]
  have hminor : (raw.bytes ++ tl).getD 5 0 = raw.minorVersion := by
    simp [RawHeader.bytes, RawHeader.fixedBytes, leBytes]
  rw [declaredHeader] at hextra ⊢
  simp only at hextra
  rw [hextra, hsorted, hmajor, hminor, streamHeapSizes_bytes, streamValid_bytes,
    declaredRows_bytes]
  rfl

end Declared

/-! ## The header a run reads -/

/-- The optional dword is present exactly when its bit is set. -/
theorem reads_readExtraData (heapSizes : UInt8) :
    Reads (readExtraData heapSizes) (fun bs extra =>
      bs = (extra.elim [] fun v => leBytes 4 v.toNat) ∧
        extra.isSome = (heapSizes &&& 0x40 != 0)) := by
  unfold readExtraData
  split
  · rename_i hbit
    refine (Reader.reads_u32.map some).mono fun bs extra h => ?_
    obtain ⟨v, rfl, rfl⟩ := h
    exact ⟨rfl, hbit.symm⟩
  · rename_i hbit
    refine (Reads.pure none).mono fun bs extra h => ?_
    obtain ⟨rfl, rfl⟩ := h
    exact ⟨rfl, (Bool.not_eq_true _ ▸ hbit).symm⟩

/-- A successful run reads the bytes of the header it returns. -/
theorem reads_readStreamHeader (base : Nat) (s : Strictness) (ds : List Diagnostic) :
    Reads (readStreamHeader base s ds) (fun bs result =>
      ∃ raw : RawHeader, bs = raw.bytes ∧ result.1 = raw.header) := by
  intro r result r' hrun
  unfold readStreamHeader at hrun
  obtain ⟨reserved, r1, h1, hrun⟩ := run_bind_ok_iff.mp hrun
  obtain ⟨_, e1, rfl, rfl⟩ := Reader.reads_u32 _ _ _ h1
  obtain ⟨major, r2, h2, hrun⟩ := run_bind_ok_iff.mp hrun
  obtain ⟨_, e2, rfl, rfl⟩ := Reader.reads_u8 _ _ _ h2
  obtain ⟨minor, r3, h3, hrun⟩ := run_bind_ok_iff.mp hrun
  obtain ⟨_, e3, rfl, rfl⟩ := Reader.reads_u8 _ _ _ h3
  obtain ⟨heapSizes, r4, h4, hrun⟩ := run_bind_ok_iff.mp hrun
  obtain ⟨_, e4, rfl, rfl⟩ := Reader.reads_u8 _ _ _ h4
  obtain ⟨reserved2, r5, h5, hrun⟩ := run_bind_ok_iff.mp hrun
  obtain ⟨_, e5, rfl, rfl⟩ := Reader.reads_u8 _ _ _ h5
  obtain ⟨valid, r6, h6, hrun⟩ := run_bind_ok_iff.mp hrun
  obtain ⟨_, e6, rfl, rfl⟩ := Reader.reads_u64 _ _ _ h6
  obtain ⟨sorted, r7, h7, hrun⟩ := run_bind_ok_iff.mp hrun
  obtain ⟨_, e7, rfl, rfl⟩ := Reader.reads_u64 _ _ _ h7
  obtain ⟨ds', r8, h8, hrun⟩ := run_bind_ok_iff.mp hrun
  cases hcheck : checkHeapSizes base s heapSizes ds with
  | error e =>
      rw [hcheck] at h8
      cases h8
  | ok checked =>
      rw [hcheck] at h8
      cases h8
      obtain ⟨⟨rowCounts, ds''⟩, r9, h9, hrun⟩ := run_bind_ok_iff.mp hrun
      obtain ⟨_, e9, rfl, counts, rfl, rfl⟩ :=
        reads_readRowCounts s valid.toNat _ _ _ List.nodup_range _ _ _ h9
      obtain ⟨extra, r10, h10, hrun⟩ := run_bind_ok_iff.mp hrun
      cases hrun
      obtain ⟨_, e10, rfl, rfl, hsome⟩ := reads_readExtraData heapSizes _ _ _ h10
      refine ⟨_, ?_, ?_, ⟨reserved, major, minor, heapSizes, reserved2, valid, sorted, counts,
        extra, hsome⟩, rfl, rfl⟩
      · simp only [RawHeader.bytes, RawHeader.fixedBytes, RawHeader.countsBytes,
          RawHeader.extraBytes, List.append_assoc]
        rw [e1, e2, e3, e4, e5, e6, e7, e9, e10]
      · simp only [Cursor.advance_advance, RawHeader.bytes, RawHeader.fixedBytes,
          RawHeader.countsBytes, RawHeader.extraBytes, List.length_append, Nat.add_assoc]

/-- The reader after bytes were read: what is left determines where it stands. -/
theorem Reader.pos_of_rest_append {data bs : List UInt8} {r : Reader}
    (hdata : r.data = data) (hsplit : data = bs ++ r.rest) : r.pos = bs.length := by
  have hr := r.pos_le
  have hlen := congrArg List.length hsplit
  have hrest : r.rest.length = r.data.length - r.pos := r.rest_length
  rw [List.length_append, hrest] at hlen
  rw [hdata] at hlen hr
  omega

/-- The header is what its bytes declare, and the reader stands where it ends. -/
theorem readStreamHeader_spec {data : List UInt8} {base : Nat} {context : String}
    {s : Strictness} {ds ds' : List Diagnostic} {h : StreamHeader} {r : Reader}
    (hrun : (readStreamHeader base s ds).run (Reader.new data base context) =
      .ok (h, ds') r) :
    h = declaredHeader data ∧ r.position = headerEnd data ∧ headerEnd data ≤ data.length := by
  obtain ⟨bs, hrest, rfl, raw, rfl, rfl⟩ := reads_readStreamHeader base s ds _ _ _ hrun
  simp only [Reader.cursor_rest, Reader.rest_new] at hrest
  have hpos := Reader.pos_of_rest_append (r := Wire.advance raw.bytes.length
    (Reader.new data base context)) rfl hrest
  rw [hrest, declaredHeader_bytes, headerEnd_bytes, ← hrest]
  refine ⟨rfl, hpos, ?_⟩
  have hdata := congrArg List.length hrest
  rw [List.length_append] at hdata
  omega

end Cildec
