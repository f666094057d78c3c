import Cildec.Body.Strict
import Cildec.Reader.Located

/-!
# The errors of a method body point into its bytes

A body is parsed from offset 0. Where a section is refused, the error names the section, a
clause or the place where the bytes ran out; the bytes of the section have all been taken by
then, so these offsets lie in the input (`MethodBody.parseWith_located`).
-/

namespace Cildec

open Wire Reader

variable {data : List UInt8} {base n hi : Nat}

/-! ## Clauses -/

theorem exits_fatClause (hmax : base + data.length ≤ usizeMax) :
    Exits (Past data base n) (Error.Located base (base + data.length)) (fun _ _ => True)
      readFatClause :=
  (exits_u32 hmax).bind fun _ => (exits_u32 hmax).bind fun _ => (exits_u32 hmax).bind fun _ =>
    (exits_u32 hmax).bind fun _ => (exits_u32 hmax).bind fun _ => (exits_u32 hmax).bind fun _ =>
    Exits.pure fun _ _ => trivial

theorem exits_smallClause (hmax : base + data.length ≤ usizeMax) :
    Exits (Past data base n) (Error.Located base (base + data.length)) (fun _ _ => True)
      readSmallClause :=
  (exits_u16 hmax).bind fun _ => (exits_u16 hmax).bind fun _ => (exits_u8 hmax).bind fun _ =>
    (exits_u16 hmax).bind fun _ => (exits_u8 hmax).bind fun _ => (exits_u32 hmax).bind fun _ =>
    Exits.pure fun _ _ => trivial

/-- A clause is refused at an offset inside its bytes. -/
theorem readClause_located {chunk : List UInt8} {fat : Bool} {offset : Nat} {e : Error}
    (hmax : offset + chunk.length ≤ usizeMax) (h : readClause chunk fat offset = .error e) :
    e.Located offset (offset + chunk.length) := by
  have hends : Exits (Past chunk offset 0) (Error.Located offset (offset + chunk.length))
      (fun _ _ => True) (if fat then readFatClause else readSmallClause) :=
    Exits.ite (fun _ => exits_fatClause hmax) fun _ => exits_smallClause hmax
  rw [readClause] at h
  cases hrun : (if fat then readFatClause else readSmallClause).run
      (Reader.new chunk offset clauseContext) with
  | error e' r =>
      rw [hrun] at h
      cases h
      exact hends.error _ _ _ (Past.new _ _ _) hrun
  | ok clause r =>
      rw [hrun] at h
      simp only [Clause.kind] at h
      have hnew : (Error.new .malformed offset clauseContext).Located offset
          (offset + chunk.length) := Error.located_new le_rfl (Nat.le_add_right _ _)
      split_ifs at h
      cases h
      exact hnew

theorem readClauses_located {body : List UInt8} {fat : Bool} {sectionStart : Nat} {e : Error}
    (hend : sectionStart + 4 + body.length ≤ hi) (hmax : hi ≤ usizeMax)
    (h : readClauses body fat sectionStart = .error e) : e.Located 0 hi := by
  obtain ⟨i, hi', herror⟩ := exists_of_mapM_error h
  have hlt : i < body.length / clauseSize fat := List.mem_range.mp hi'
  have hlast : (i + 1) * clauseSize fat ≤ body.length :=
    (Nat.mul_le_mul_right _ hlt).trans (Nat.div_mul_le_self _ _)
  rw [Nat.succ_mul] at hlast
  have hlen : ((body.drop (i * clauseSize fat)).take (clauseSize fat)).length ≤ clauseSize fat :=
    List.length_take_le _ _
  refine (readClause_located (by omega) herror).mono (Nat.zero_le _) ?_
  omega

/-! ## Sections -/

theorem sectionBodySize_located {strictness : Strictness} {isEh fat : Bool}
    {declared remaining sectionStart : Nat} {e : Error} (hstart : sectionStart ≤ hi)
    (h : sectionBodySize strictness isEh fat declared remaining sectionStart = .error e) :
    e.Located 0 hi := by
  unfold sectionBodySize at h
  simp only at h
  split_ifs at h
  cases h
  exact Error.located_new (Nat.zero_le _) hstart

theorem clampBodySize_located {strictness : Strictness}
    {declared bodySize available sectionStart : Nat} {e : Error} (hstart : sectionStart ≤ hi)
    (h : clampBodySize strictness declared bodySize available sectionStart = .error e) :
    e.Located 0 hi := by
  unfold clampBodySize at h
  split_ifs at h
  cases h
  exact Error.located_new (Nat.zero_le _) hstart

/-- The bytes of the section lie before `hi`, and with them what an error in it names. -/
theorem decodeSection_located {strictness : Strictness} {kind : UInt8} {fat : Bool}
    {sectionStart : Nat} {body : List UInt8} {e : Error}
    (hend : sectionStart + 4 + body.length ≤ hi) (hmax : hi ≤ usizeMax)
    (h : decodeSection strictness kind fat sectionStart body = .error e) : e.Located 0 hi := by
  unfold decodeSection at h
  by_cases hkind : (kind &&& 0x01 != 0) = true
  · rw [if_pos hkind] at h
    cases hwhole : checkWholeClauses strictness fat body.length sectionStart with
    | error e' =>
        rw [hwhole] at h
        cases h
        unfold checkWholeClauses at hwhole
        split_ifs at hwhole
        cases hwhole
        exact Error.located_new (Nat.zero_le _) (by omega)
    | ok ds =>
        cases hclauses : readClauses body fat sectionStart with
        | error e' =>
            rw [hwhole, hclauses] at h
            cases h
            exact readClauses_located hend hmax hclauses
        | ok handlers =>
            rw [hwhole, hclauses] at h
            cases h
  · rw [if_neg hkind] at h
    cases h

theorem exits_alignTo (hmax : base + data.length ≤ usizeMax) (origin align : Nat) :
    Exits (Past data base n) (Error.Located base (base + data.length))
      (fun _ => Past data base n) (alignTo origin align) := by
  refine Exits.get_bind fun r hr => ?_
  refine (exits_skip hmax _).mono (fun _ h => ?_) fun _ _ h => h.mono (Nat.le_add_right n _)
  rw [h]
  exact hr

theorem exits_dataSize (hmax : base + data.length ≤ usizeMax) (fat : Bool) :
    Exits (Past data base n) (Error.Located base (base + data.length))
      (fun _ => Past data base (n + 3)) (readDataSize fat) := by
  cases fat with
  | true =>
      refine (exits_take hmax 3).bind fun b => ?_
      exact Exits.pure fun _ h => h.2
  | false =>
      refine (exits_u8 hmax).bind fun size => ?_
      refine (exits_u16 hmax).bind fun _ => ?_
      exact Exits.pure fun _ h => h

/-- The four bytes of its header and the bytes of its body stand between the start of a
section and the cursor, when the body is looked at. -/
theorem exits_section (hmax : data.length ≤ usizeMax) (strictness : Strictness) :
    Exits (Past data 0 0) (Error.Located 0 data.length) (fun _ => Past data 0 0)
      (readSection strictness) := by
  have hmax' : 0 + data.length ≤ usizeMax := by omega
  have hzero : 0 + data.length = data.length := Nat.zero_add _
  rw [← hzero]
  refine (exits_alignTo hmax' 0 4).bind fun _ => ?_
  refine Exits.get_bind fun r hr => ?_
  have hposition : r.position = r.pos := rfl
  have hstart : r.pos ≤ 0 + data.length := by
    rw [← hr.data_eq, Nat.zero_add]
    exact r.pos_le
  have hhere : Past data 0 r.pos r := ⟨hr.data_eq, hr.base_eq, le_rfl⟩
  refine Exits.mono (P := Past data 0 r.pos) ?_ (fun _ h => h ▸ hhere) fun _ _ h => h
  refine (exits_u8 hmax').bind fun kind => ?_
  refine (exits_dataSize hmax' _).bind fun declared => ?_
  refine Exits.get_bind fun r' hr' => ?_
  refine Exits.mono (P := Past data 0 (r.pos + 1 + 3)) ?_ (fun _ h => h ▸ hr') fun _ _ h => h
  refine (Exits.ofExcept (Q := fun _ => Past data 0 (r.pos + 1 + 3)) (fun _ _ _ h => h)
    fun e h => sectionBodySize_located hstart h).bind fun sized => ?_
  refine (Exits.ofExcept (Q := fun _ => Past data 0 (r.pos + 1 + 3)) (fun _ _ _ h => h)
    fun e h => clampBodySize_located hstart h).bind fun clamped => ?_
  refine (exits_take hmax' clamped.1).bind fun body => ?_
  refine Exits.of_pre fun s hs => ?_
  have hend := hs.2.le_length
  rw [← hs.1] at hend
  refine (Exits.ofExcept (Q := fun _ => Past data 0 0) (fun _ _ _ h => h.2.mono (Nat.zero_le _))
    fun e h => decodeSection_located (by omega) hmax' h).bind fun decoded => ?_
  exact Exits.pure fun _ h => h

/-- The chain of sections, by induction along it. -/
theorem parseSections_located (hmax : data.length ≤ usizeMax) {strictness : Strictness}
    (sections : Sections) (r : Reader) : ∀ {e r'}, Past data 0 0 r →
      (parseSections strictness sections).run r = .error e r' → e.Located 0 data.length := by
  induction sections, r using chain_induction (s := strictness) with
  | step sections r ih =>
      intro e r' hr hrun
      rw [parseSections_run] at hrun
      cases hsection : (readSection strictness).run r with
      | error e' mid =>
          rw [hsection] at hrun
          cases hrun
          exact (exits_section hmax strictness).error _ _ _ hr hsection
      | ok a mid =>
          obtain ⟨decoded, more⟩ := a
          have hmid := (exits_section hmax strictness).ok _ _ _ hr hsection
          have hpos := mid.pos_le
          rw [hmid.data_eq] at hpos
          rw [hsection] at hrun
          cases more with
          | false => cases hrun
          | true =>
              simp only [Bool.not_true, Bool.false_eq_true, if_false] at hrun
              split_ifs at hrun
              · cases hrun
                exact Error.located_new (Nat.zero_le _) hpos
              · exact ih decoded mid hsection hmid hrun

/-! ## Bodies -/

theorem exits_readSections (hmax : data.length ≤ usizeMax) (strictness : Strictness)
    (flags : FatFlags) :
    Exits (Past data 0 0) (Error.Located 0 data.length) (fun _ _ => True)
      (readSections strictness flags) := by
  refine Exits.ite (fun _ => ?_) fun _ => Exits.pure fun _ _ => trivial
  constructor
  case ok =>
    intro _ _ _ _ _
    trivial
  case error =>
    intro r e r' hr hrun
    exact parseSections_located hmax _ r hr hrun

theorem exits_parseTiny (hmax : base + data.length ≤ usizeMax) (codeRva : UInt32) :
    Exits (Past data base n) (Error.Located base (base + data.length)) (fun _ _ => True)
      (parseTiny codeRva) :=
  (exits_u8 hmax).bind fun _ => (exits_take hmax _).bind fun _ => Exits.pure fun _ _ => trivial

theorem checkHeaderSize_located {strictness : Strictness} {headerDwords : UInt8} {e : Error}
    (h : checkHeaderSize strictness headerDwords = .error e) : e.Located 0 hi := by
  unfold checkHeaderSize at h
  split_ifs at h
  cases h
  exact Error.located_new le_rfl (Nat.zero_le _)

theorem checkLocalVarSig_located {strictness : Strictness} {localVarSig : Option Token}
    {e : Error} (hhi : 8 ≤ hi) (h : checkLocalVarSig strictness localVarSig = .error e) :
    e.Located 0 hi := by
  unfold checkLocalVarSig at h
  split_ifs at h
  cases h
  exact Error.located_new (Nat.zero_le _) hhi

theorem exits_parseFat (hmax : data.length ≤ usizeMax) (codeRva : UInt32)
    (strictness : Strictness) :
    Exits (Past data 0 0) (Error.Located 0 data.length) (fun _ _ => True)
      (parseFat codeRva strictness) := by
  have hmax' : 0 + data.length ≤ usizeMax := by omega
  have hsections := exits_readSections hmax strictness
  have hzero : 0 + data.length = data.length := Nat.zero_add _
  rw [← hzero] at hsections ⊢
  refine (exits_u16 hmax').bind fun flagsAndSize => ?_
  refine (exits_u16 hmax').bind fun maxStack => ?_
  refine (exits_u32 hmax').bind fun codeSize => ?_
  refine (exits_u32 hmax').bind fun localVarSigTok => ?_
  -- twelve bytes have been read, so offset 8 is one of them
  refine Exits.of_pre fun s hs => ?_
  have hheader := hs.le_length
  refine (Exits.ofExcept (Q := fun _ => Past data 0 0)
    (fun _ _ _ h => h.mono (Nat.zero_le _))
    fun e h => checkHeaderSize_located h).bind fun diagnostics => ?_
  refine (exits_seek hmax' _).bind fun _ => ?_
  refine (exits_take hmax' _).bind fun code => ?_
  refine (Exits.ofExcept (Q := fun _ => Past data 0 0)
    (fun _ _ _ h => h.2.mono (Nat.zero_le _))
    fun e h => checkLocalVarSig_located (by omega) h).bind fun _ => ?_
  refine (hsections _).bind fun sections => ?_
  refine Exits.get_bind fun r _ => ?_
  exact Exits.pure fun _ _ => trivial

/-- An error of a method body names an offset in its bytes. -/
theorem MethodBody.parseWith_located {bytes : List UInt8} {codeRva : UInt32}
    {strictness : Strictness} {e : Error} (hmax : bytes.length ≤ usizeMax)
    (h : MethodBody.parseWith bytes codeRva strictness = .error e) : e.Located 0 bytes.length := by
  have hmax' : 0 + bytes.length ≤ usizeMax := by omega
  have hfat := exits_parseFat hmax codeRva strictness
  have hzero : 0 + bytes.length = bytes.length := Nat.zero_add _
  rw [← hzero] at hfat ⊢
  have hbody : Exits (Past bytes 0 0) (Error.Located 0 (0 + bytes.length)) (fun _ _ => True)
      (parseBody codeRva strictness) := by
    refine (exits_peekU8 hmax').bind fun first => ?_
    refine Exits.ite (fun _ => exits_parseTiny hmax' codeRva) fun _ => ?_
    refine Exits.ite (fun _ => hfat) fun _ => ?_
    exact Exits.throw (Error.located_new le_rfl (Nat.zero_le _))
  rw [MethodBody.parseWith] at h
  cases hrun : (parseBody codeRva strictness).run (Reader.new bytes 0 bodyContext) with
  | ok body r =>
      rw [hrun] at h
      cases h
  | error e' r =>
      rw [hrun] at h
      cases h
      exact hbody.error _ _ _ (Past.new _ _ _) hrun

end Cildec
