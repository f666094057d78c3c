import Cildec.Display.Length
import Cildec.Display.Weight

/-!
# A name against its region

The text that one token has of its own is bounded by the square of the region
(`own_outline_le`). The number of ways on which tokens are named in a name is not: a hop can
follow as many tokens as a signature holds, and the limit on the hops only makes the exponent
finite.

* `name_bounded_iff`: when a name has at most `(MAX_DEPTH + 1) * 64 * (n + 1)²` characters;
* `name_unbounded`: a region of 90 bytes with a name of more than `2 ^ 32`.
-/

namespace Cildec

open Wire

/-! ## Texts of a region -/

theorem length_qualify (namespace_ name : String) :
    (qualify namespace_ name).length ≤ namespace_.length + 1 + name.length := by
  unfold qualify
  by_cases h : namespace_.isEmpty
  · rw [if_pos h]
    exact Nat.le_add_left _ _
  · rw [if_neg h, String.length_append, String.length_append]
    exact Nat.le_refl _

theorem TableId.length_name (table : TableId) : table.name.length ≤ 22 := by
  cases table <;> decide

theorem Token.length_rid (t : Token) : (toString t.rid).length ≤ 8 :=
  length_toString_nat (by decide) (Nat.lt_trans t.rid_lt (by decide))

/-- A token that cannot be resolved takes at most 32 characters. -/
theorem Token.length_fallback (t : Token) : t.fallback.length ≤ 32 := by
  unfold fallback
  cases t.table with
  | some table =>
      have hname := table.length_name
      have hrid := t.length_rid
      show (table.name ++ "[" ++ toString t.rid ++ "]").length ≤ 32
      have hbrackets : "[".length = 1 ∧ "]".length = 1 := ⟨rfl, rfl⟩
      simp only [String.length_append]
      omega
  | none =>
      have hdigits : (Nat.toDigits 16 t.value.toNat).length ≤ 8 :=
        (Nat.length_toDigits_le_iff (by decide) (by decide)).mpr t.value.toNat_lt
      have hsign : "0x".length = 2 := rfl
      show ("0x" ++ hexPadded 8 t.value.toNat).length ≤ 32
      rw [String.length_append, hexPadded]
      simp only [String.length_ofList, List.length_append, List.length_replicate]
      omega

theorem Span.length_at {span : Span} {offset : Nat} {context : String} {rest : List UInt8}
    (h : span.at_ offset context = .ok rest) : rest.length ≤ span.data.length := by
  unfold at_ at h
  split at h
  · cases h
    rw [List.length_drop]
    exact Nat.sub_le _ _
  · cases h

theorem Span.length_entry {span : Span} {offset size : Nat} {context : String}
    {body : List UInt8} (h : span.entry offset context = .ok (body, size)) :
    body.length ≤ span.data.length := by
  obtain ⟨rest, hrest, h⟩ := ok_bind_iff.mp h
  obtain ⟨p, _, h⟩ := ok_bind_iff.mp h
  simp only at h
  split at h
  · rename_i found hslice
    cases h
    obtain ⟨_, rfl⟩ := slice?_eq_some_iff.mp hslice
    refine Nat.le_trans (List.length_take_le' _ _) ?_
    rw [List.length_drop]
    exact Nat.le_trans (Nat.sub_le _ _) (Span.length_at hrest)
  · cases h

namespace Names

variable {n : Nat} {strictness : Strictness} {m : Metadata}

theorem length_string (h : Metadata.Extent n strictness m) (index : StringIndex) :
    (string m index).length ≤ n := by
  unfold string
  cases hlossy : m.strings.lossy index.value.toNat with
  | error e => exact Nat.zero_le n
  | ok text =>
      obtain ⟨bytes, hbytes, htext⟩ := ok_bind_iff.mp hlossy
      obtain ⟨rest, hrest, htake⟩ := ok_bind_iff.mp hbytes
      cases htext
      cases htake
      have hle := Span.length_at hrest
      have hextent := h.strings
      refine Nat.le_trans (length_fromUtf8Lossy_le _) ?_
      rw [List.length_take]
      omega

theorem length_blob (h : Metadata.Extent n strictness m) {index : Nat} {blob : List UInt8}
    (hget : Checked.ofResult (m.blobs.get index) = .ok blob) : blob.length ≤ n := by
  cases hblob : m.blobs.get index with
  | error e =>
      rw [hblob] at hget
      cases hget
  | ok found =>
      rw [hblob] at hget
      cases hget
      obtain ⟨p, hp, hpure⟩ := ok_bind_iff.mp hblob
      cases hpure
      exact Nat.le_trans (Span.length_entry hp) h.blobs

theorem length_typeDefName (h : Metadata.Extent n strictness m) {rid : Nat} {name : String}
    (hname : typeDefName m rid = .ok name) : name.length ≤ 2 * n + 1 := by
  obtain ⟨row, _, hname⟩ := ok_bind_iff.mp hname
  cases hname
  have := length_qualify (string m (row.2.2.1 : StringIndex)) (string m (row.2.1 : StringIndex))
  have := length_string h (row.2.2.1 : StringIndex)
  have := length_string h (row.2.1 : StringIndex)
  omega

theorem length_outward (h : Metadata.Extent n strictness m) : ∀ rounds current name {found},
    outward m rounds current name = .ok found →
      found.length ≤ name.length + rounds * (2 * n + 2)
  | 0, _, _, _, hrun => by
      cases hrun
      exact Nat.le_add_right _ _
  | rounds + 1, current, name, found, hrun => by
      have hmul : (rounds + 1) * (2 * n + 2) = rounds * (2 * n + 2) + (2 * n + 2) :=
        Nat.succ_mul _ _
      obtain ⟨outer, _, hrun⟩ := ok_bind_iff.mp hrun
      cases outer with
      | none =>
          cases hrun
          exact Nat.le_add_right _ _
      | some outer =>
          simp only at hrun
          split at hrun
          · cases hrun
            exact Nat.le_add_right _ _
          · obtain ⟨outerName, houter, hrun⟩ := ok_bind_iff.mp hrun
            have hrest := length_outward h rounds _ _ hrun
            have hname := length_typeDefName h houter
            have hslash : "/".length = 1 := rfl
            rw [String.length_append, String.length_append] at hrest
            omega

/-- A type within types takes a name for each row of `NestedClass`. -/
theorem length_typeDef (h : Metadata.Extent n strictness m) {rid : Nat} {name : String}
    (hname : typeDef m rid = .ok name) : name.length ≤ 2 * (n + 1) ^ 2 := by
  obtain ⟨own, hown, hrun⟩ := ok_bind_iff.mp hname
  have hfirst := length_typeDefName h hown
  have hrest := length_outward h _ _ _ hrun
  have hrounds := Nat.mul_le_mul_right (2 * n + 2) (h.rowCount_le .nestedClass)
  have hsquare : 2 * (n + 1) ^ 2 = n * (2 * n + 2) + (2 * n + 2) := by ring
  omega

theorem length_ownerName (h : Metadata.Extent n strictness m) {owner : Checked (Option Nat)}
    {name : String} (hname : ownerName m owner = .ok name) :
    name.length ≤ 2 * (n + 1) ^ 2 := by
  obtain ⟨found, _, hname⟩ := ok_bind_iff.mp hname
  cases found with
  | some rid => exact length_typeDef h hname
  | none =>
      cases hname
      have : 1 ≤ (n + 1) ^ 2 := Nat.pow_pos (Nat.succ_pos n)
      show 1 ≤ _
      omega

/-! ## Texts of a token -/

/-- The characters a token can have of its own. -/
def ownBound (n : Nat) : Nat := 33 * (n + 1) ^ 2

theorem ownBound_eq (n : Nat) : ownBound n = 33 * (n * n) + 66 * n + 33 := by
  unfold ownBound
  ring

/-- A name and its scopes, with so many hops left. -/
theorem length_typeRef (h : Metadata.Extent n strictness m) : ∀ hops {depth rid name},
    depth + hops = maxDepth → Renders m (.typeRef depth rid) name →
      name.length ≤ hops * (2 * n + 2) + n + 10 := by
  intro hops
  induction hops with
  | zero =>
      intro depth rid name hdepth hname
      have hrun := returns_iff.mp hname
      simp only [body, typeRef, if_pos (show maxDepth ≤ depth by omega)] at hrun
      cases hrun
  | succ hops ih =>
      intro depth rid name hdepth hname
      have hrun := returns_iff.mp hname
      simp only [body, typeRef, if_neg (show ¬ maxDepth ≤ depth by omega)] at hrun
      obtain ⟨row, _, hrun⟩ := Script.run_bind_ok_iff.mp hrun
      have hmul : (hops + 1) * (2 * n + 2) = hops * (2 * n + 2) + (2 * n + 2) :=
        Nat.succ_mul _ _
      have hown := length_qualify (string m (row.2.2.1 : StringIndex))
        (string m (row.2.1 : StringIndex))
      have hspace := length_string h (row.2.2.1 : StringIndex)
      have hlast := length_string h (row.2.1 : StringIndex)
      generalize qualify (string m (row.2.2.1 : StringIndex))
        (string m (row.2.1 : StringIndex)) = own at hrun hown
      -- by the scope: none, an assembly, a module, or an enclosing type one hop further
      unfold scopedName at hrun
      split at hrun
      · cases hrun
        omega
      · split at hrun
        · obtain ⟨assembly, _, hrun⟩ := Script.run_bind_ok_iff.mp hrun
          cases hrun
          have hscope := length_string h (assembly.2.2.2.2.2.2.1 : StringIndex)
          have hbrackets : "[".length = 1 ∧ "]".length = 1 := ⟨rfl, rfl⟩
          simp only [String.length_append]
          omega
        · obtain ⟨module, _, hrun⟩ := Script.run_bind_ok_iff.mp hrun
          cases hrun
          have hscope := length_string h (module.1 : StringIndex)
          have hbrackets : "[.module ".length = 9 ∧ "]".length = 1 := ⟨rfl, rfl⟩
          simp only [String.length_append]
          omega
        · obtain ⟨outer, houter, rfl⟩ := run_call_then hrun
          have hscope := ih (by rw [deeper]; omega) houter
          have hslash : "/".length = 1 := rfl
          simp only [String.length_append]
          omega
        · cases hrun
          omega

theorem plain_ok_iff {x : Option (Except Fault String)} {o : Outline} :
    plain x = .ok o ↔ ∃ name, x = some (.ok name) ∧ o = .text name := by
  constructor
  · intro h
    cases x with
    | none => cases h
    | some x =>
        cases x with
        | ok name =>
            cases h
            exact ⟨name, rfl, rfl⟩
        | error f => cases h
  · rintro ⟨name, rfl, rfl⟩
    rfl

/-- A member behind its owner: `methodDef` and `field`. -/
theorem length_member (h : Metadata.Extent n strictness m) {α : Type} {x : Checked α}
    {owner : Checked (Option Nat)} {index : α → StringIndex} {name : String}
    (hrun : (Script.ofExcept x >>= fun row => Script.ofExcept (ownerName m owner) >>=
      fun owner => pure (owner ++ "::" ++ string m (index row)) : Body String).run
        (fun _ => none) = some (.ok name)) : name.length ≤ ownBound n := by
  obtain ⟨row, _, hrun⟩ := Script.run_bind_ok_iff.mp hrun
  obtain ⟨owner, howner, hrun⟩ := Script.run_bind_ok_iff.mp hrun
  cases hrun
  have hfirst := length_ownerName h (Script.run_ofExcept_ok_iff.mp howner)
  have hlast := length_string h (index row)
  have hbound := ownBound_eq n
  have hsquare : 2 * (n + 1) ^ 2 = 2 * (n * n) + 4 * n + 2 := by ring
  have hcolons : "::".length = 2 := rfl
  simp only [String.length_append]
  omega

/-- A name in brackets: `moduleRef` and `assemblyRef`. -/
theorem length_bracketed (h : Metadata.Extent n strictness m) {α : Type} {x : Checked α}
    {opening : String} (hopening : opening.length ≤ 9) {index : α → StringIndex} {name : String}
    (hrun : (Script.ofExcept x >>= fun row => pure (opening ++ string m (index row) ++ "]") :
      Body String).run (fun _ => none) = some (.ok name)) : name.length ≤ ownBound n := by
  obtain ⟨row, _, hrun⟩ := Script.run_bind_ok_iff.mp hrun
  cases hrun
  have hname := length_string h (index row)
  have hbound := ownBound_eq n
  have hbracket : "]".length = 1 := rfl
  simp only [String.length_append]
  omega

theorem own_typeSpecOutline (h : Metadata.Extent n strictness m) {t : Token} {o : Outline}
    (ho : typeSpecOutline m t.rid = .ok o) : o.own ≤ ownBound n := by
  have hbound := ownBound_eq n
  obtain ⟨row, _, ho⟩ := ok_bind_iff.mp ho
  obtain ⟨blob, hblob, ho⟩ := ok_bind_iff.mp ho
  split at ho
  · rename_i sig hsig
    cases ho
    have hown := TypeSpecSig.own_le hsig (length_blob h hblob)
    rw [Nat.add_mul] at hown
    omega
  · cases ho
    have hrid := t.length_rid
    have hname : "TypeSpec[".length = 9 ∧ "]".length = 1 := ⟨rfl, rfl⟩
    show ("TypeSpec[" ++ toString t.rid ++ "]").length ≤ _
    rw [String.length_append, String.length_append]
    omega

theorem own_memberRefOutline (h : Metadata.Extent n strictness m) {rid : Nat} {o : Outline}
    (ho : memberRefOutline m rid = .ok o) : o.own ≤ ownBound n := by
  obtain ⟨row, _, ho⟩ := ok_bind_iff.mp ho
  cases ho
  have hname := length_string h (row.2.1 : StringIndex)
  have hbound := ownBound_eq n
  have hcolons : "::".length = 2 := rfl
  show 0 + ("::" ++ string m (row.2.1 : StringIndex)).length ≤ _
  rw [String.length_append]
  omega

theorem own_methodSpecOutline (h : Metadata.Extent n strictness m) {rid : Nat} {o : Outline}
    (ho : methodSpecOutline m rid = .ok o) : o.own ≤ ownBound n := by
  obtain ⟨row, _, ho⟩ := ok_bind_iff.mp ho
  obtain ⟨blob, hblob, ho⟩ := ok_bind_iff.mp ho
  split at ho
  · rename_i sig hsig
    cases ho
    have hown := MethodSpecSig.own_le hsig (length_blob h hblob)
    have hbound := ownBound_eq n
    rw [Nat.add_mul] at hown
    show 0 + 1 + (Outline.joined ", " (SigType.outlines sig.args)).own + 1 ≤ _
    omega
  · cases ho
    exact Nat.zero_le _

/-- A token has at most so many characters of its own. -/
theorem own_tryOutline (h : Metadata.Extent n strictness m) {hops : Nat}
    (hhops : hops ≤ maxDepth) {t : Token} {o : Outline} (ho : tryOutline m hops t = .ok o) :
    o.own ≤ ownBound n := by
  have hbound := ownBound_eq n
  unfold tryOutline at ho
  split at ho
  · obtain ⟨name, hname, rfl⟩ := plain_ok_iff.mp ho
    have hlength := length_typeDef h (Option.some.inj hname)
    have hsquare : 2 * (n + 1) ^ 2 = 2 * (n * n) + 4 * n + 2 := by ring
    show name.length ≤ _
    omega
  · obtain ⟨name, hname, rfl⟩ := plain_ok_iff.mp ho
    have hlength := length_typeRef h hops (by omega) (answers_iff.mp hname)
    have hle : hops * (2 * n + 2) ≤ 32 * (2 * n + 2) := Nat.mul_le_mul_right _ hhops
    have hdouble : n * 20 ≤ n * n := Nat.mul_le_mul_left n h.root
    have hroot := h.root
    show name.length ≤ _
    omega
  · exact own_typeSpecOutline h ho
  · obtain ⟨name, hname, rfl⟩ := plain_ok_iff.mp ho
    exact length_member h hname
  · obtain ⟨name, hname, rfl⟩ := plain_ok_iff.mp ho
    exact length_member h hname
  · exact own_memberRefOutline h ho
  · exact own_methodSpecOutline h ho
  · obtain ⟨name, hname, rfl⟩ := plain_ok_iff.mp ho
    exact length_bracketed h (by decide) hname
  · obtain ⟨name, hname, rfl⟩ := plain_ok_iff.mp ho
    exact length_bracketed h (by decide) hname
  · cases ho
    have hlength := t.length_fallback
    show t.fallback.length ≤ _
    omega

theorem own_outline_le (h : Metadata.Extent n strictness m) {hops : Nat}
    (hhops : hops ≤ maxDepth) (t : Token) : (outline m hops t).own ≤ ownBound n := by
  have hfallback : (Outline.text t.fallback).own ≤ ownBound n := by
    have hlength := t.length_fallback
    have hbound := ownBound_eq n
    show t.fallback.length ≤ _
    omega
  cases hops with
  | zero => exact hfallback
  | succ hops =>
      rw [outline]
      cases ho : tryOutline m hops t with
      | ok o => exact own_tryOutline h (Nat.le_of_succ_le hhops) ho
      | error f => exact hfallback

theorem paths_hops {hops : Nat} : ∀ {t : Token}, ∀ p ∈ paths m hops t, p.1 ≤ hops := by
  induction hops with
  | zero =>
      intro t p hp
      rw [List.mem_singleton.mp hp]
  | succ hops ih =>
      intro t p hp
      rcases List.mem_cons.mp hp with rfl | hp
      · exact Nat.le_refl _
      · obtain ⟨t', _, hp⟩ := List.mem_flatMap.mp hp
        exact Nat.le_succ_of_le (ih p hp)

/-- Each of the ways brings in a bounded text. -/
theorem pathText_le (h : Metadata.Extent n strictness m) {hops : Nat} (hhops : hops ≤ maxDepth)
    (t : Token) : pathText m hops t ≤ (paths m hops t).length * ownBound n := by
  rw [pathText, ← List.length_map (fun p : Nat × Token => (outline m p.1 p.2).own)]
  refine List.sum_le_card_nsmul _ _ fun own hown => ?_
  obtain ⟨p, hp, rfl⟩ := List.mem_map.mp hown
  exact own_outline_le h (Nat.le_trans (paths_hops p hp) hhops) p.2

/-! ## The whole name -/

/-- A name is within the bound exactly when the tokens on its ways have together no more
characters of their own; up to 64 ways it is, whatever the texts are. -/
theorem name_bounded_iff {bytes : List UInt8} {base : Nat} {strictness : Strictness}
    {m : Metadata} (hparse : Metadata.parseAt bytes base strictness = .ok m) (t : Token)
    {name : String} (hname : Script.Returns (body m) (.token 0 t) (.ok name)) :
    (name.length ≤ (maxDepth + 1) * 64 * (bytes.length + 1) ^ 2 ↔
      ((paths m maxDepth t).map fun p => (outline m p.1 p.2).own).sum ≤
        (maxDepth + 1) * 64 * (bytes.length + 1) ^ 2) ∧
    ((paths m maxDepth t).length ≤ 64 →
      name.length ≤ (maxDepth + 1) * 64 * (bytes.length + 1) ^ 2) := by
  have hlength : name.length = pathText m maxDepth t := length_token (Nat.le_refl _) t name hname
  refine ⟨by rw [hlength, pathText], fun hpaths => ?_⟩
  have hle := pathText_le (Metadata.extent_of_parseAt hparse) (Nat.le_refl maxDepth) t
  have hways := Nat.mul_le_mul_right (ownBound bytes.length) hpaths
  have hbound : 64 * ownBound bytes.length = (maxDepth + 1) * 64 * (bytes.length + 1) ^ 2 := by
    rw [ownBound, ← Nat.mul_assoc]
    rfl
  omega

/-- The one `TypeSpec` of `selfReference`. -/
def selfToken : Token := Token.new .typeSpec 1

/-- It names itself twice. -/
theorem selfReference_outline : ∃ m, Metadata.parse selfReference = .ok m ∧
    ∀ hops, outline m (hops + 1) selfToken = ⟨14, [selfToken, selfToken]⟩ := by
  have hfound : ((Metadata.parse selfReference).toOption.bind fun m =>
      (typeSpecOutline m 1).toOption) = some ⟨14, [selfToken, selfToken]⟩ := by
    decide +kernel
  cases hparse : Metadata.parse selfReference with
  | error e =>
      rw [hparse] at hfound
      cases hfound
  | ok m =>
      refine ⟨m, rfl, fun hops => ?_⟩
      have htry : tryOutline m hops selfToken = typeSpecOutline m 1 := by
        unfold tryOutline
        rw [show selfToken.table = some .typeSpec by decide, show selfToken.rid = 1 by decide]
      rw [hparse] at hfound
      rw [outline, htry]
      cases houtline : typeSpecOutline m 1 with
      | error f =>
          rw [Except.toOption, Option.bind_some, houtline] at hfound
          cases hfound
      | ok o =>
          rw [Except.toOption, Option.bind_some, houtline] at hfound
          exact Option.some.inj hfound

/-- The name of a token that resolves nowhere stays within the bound. -/
theorem name_bounded_of_fallback : ∃ m name, Metadata.parse selfReference = .ok m ∧
    Script.Returns (body m) (.token 0 (Token.new .module 1)) (.ok name) ∧
    name.length ≤ (maxDepth + 1) * 64 * (selfReference.length + 1) ^ 2 := by
  obtain ⟨m, hparse, _⟩ := selfReference_outline
  obtain ⟨name, hname⟩ := total_returns hparse (by decide)
    (show (Call.token 0 (Token.new .module 1)).isTotal = true from rfl)
  have houtline : outline m maxDepth (Token.new .module 1) =
      .text (Token.new .module 1).fallback := by
    have htry : tryOutline m 31 (Token.new .module 1) =
        .ok (.text (Token.new .module 1).fallback) := by
      unfold tryOutline
      rw [Token.table_new]
      rfl
    rw [show maxDepth = 31 + 1 from rfl, outline, htry]
  have hpaths : (paths m maxDepth (Token.new .module 1)).length = 1 := by
    rw [show maxDepth = 31 + 1 from rfl] at houtline ⊢
    rw [paths, houtline]
    rfl
  exact ⟨m, name, hparse, hname, (name_bounded_iff hparse _ hname).2 (by omega)⟩

/-- Every hop doubles the name of the `TypeSpec`. -/
theorem name_unbounded : ∃ m name, Metadata.parse selfReference = .ok m ∧
    Script.Returns (body m) (.token 0 selfToken) (.ok name) ∧
    ¬ name.length ≤ (maxDepth + 1) * 64 * (selfReference.length + 1) ^ 2 := by
  obtain ⟨m, hparse, houtline⟩ := selfReference_outline
  obtain ⟨name, hname⟩ := total_returns hparse (by decide)
    (show (Call.token 0 selfToken).isTotal = true from rfl)
  have hgrows : ∀ hops, 2 ^ hops ≤ pathText m hops selfToken := by
    intro hops
    induction hops with
    | zero => exact (by decide : 1 ≤ (selfToken.fallback).length + 0)
    | succ hops ih =>
        have hsum : pathText m (hops + 1) selfToken =
            14 + (pathText m hops selfToken + (pathText m hops selfToken + 0)) := by
          rw [pathText_succ, houtline]
          rfl
        rw [hsum, Nat.pow_succ]
        omega
  have hlength : name.length = pathText m maxDepth selfToken :=
    length_token (Nat.le_refl _) selfToken name hname
  have hlarge := hgrows maxDepth
  have hbound : (maxDepth + 1) * 64 * (selfReference.length + 1) ^ 2 < 2 ^ maxDepth := by decide
  refine ⟨m, name, hparse, hname, ?_⟩
  omega

end Names

end Cildec
