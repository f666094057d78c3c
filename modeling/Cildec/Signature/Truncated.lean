import Cildec.Signature.Locality

/-!
# Truncated signatures

A blob that a parser accepts decides where its signature ends.

* `Parser.pos_le_of_truncated`: what is read from the front of a blob is read from the whole
  blob as well, so the signature ends there too;
* `signatures_delimit`: for all six parsers no truncation of a signature is accepted, and what
  is accepted exactly is no proper prefix of another.
-/

namespace Cildec

open Wire Cildec.Parser

/-- `x` accepts `blob` after consuming `k` bytes. -/
def AcceptsAfter {α : Type} (x : List UInt8 → Parse α) (options : SignatureOptions)
    (blob : List UInt8) (k : Nat) : Prop :=
  ∃ a p, (x blob).run (Parser.new blob options) = .ok a p ∧ p.pos = k

/-- The signatures that `parse` reads with `x` end where their bytes say. -/
structure Delimits {α : Type} (parse : List UInt8 → Result α) (x : List UInt8 → Parse α)
    (options : SignatureOptions) : Prop where
  truncation_fails : ∀ blob k, AcceptsAfter x options blob k → ∀ j < k, ∀ a,
    parse (blob.take j) ≠ .ok a
  prefix_free : ∀ blob blob', AcceptsAfter x options blob blob.length →
    AcceptsAfter x options blob' blob'.length → blob <+: blob' → blob = blob'

/-- A spelling that is read from the first `j` bytes of a blob is read from all of them: its
marks have only more room there. -/
theorem Parser.pos_le_of_truncated {α : Type} {options : SignatureOptions} {x y : Parse α}
    {R S : Grammar α} (hx : Accepts (At options.limit 0 false) x R)
    (hy : Accepts (At options.limit 0 false) y S)
    (hsame : ∀ a bs ms, S a bs ms → ∃ b, R b bs ms) {blob : List UInt8} {j : Nat} {a b : α}
    {p : Parser} (hrun : x.run (Parser.new blob options) = .ok a p)
    (hcut : finish (y.run (Parser.new (blob.take j) options)) = .ok b) : p.pos ≤ j := by
  obtain ⟨q, hrun'⟩ := Parser.finish_ok_iff.mp hcut
  obtain ⟨bs, ms, hrest, rfl, hS, hfits⟩ := hy.sound _ b q (Parser.new_at _ options) hrun'
  have htake : blob.take j = bs ++ _ := (Parser.rest_new _ options).symm.trans hrest
  obtain ⟨c, hR⟩ := hsame b bs ms hS
  have hblob := List.take_append_drop j blob
  rw [htake, List.append_assoc] at hblob
  -- with the rest of the blob behind them the marks have more bytes left than before
  have hfits' := hfits.mono (Nat.le_add_right _ (blob.drop j).length)
  rw [← List.length_append] at hfits'
  have hwhole := hx.complete (Parser.new blob options) c bs ms _ (Parser.new_at blob options) hR
    ((Parser.rest_new blob options).trans hblob.symm) hfits'
  rw [hrun] at hwhole
  cases hwhole
  have hlen := congrArg List.length htake
  rw [List.length_take, List.length_append] at hlen
  show 0 + bs.length ≤ j
  omega

theorem Parser.delimits {α : Type} {options : SignatureOptions} {x : List UInt8 → Parse α}
    {R : List UInt8 → Grammar α} {f : α → List UInt8 → α}
    (h : ∀ blob, Accepts (At options.limit 0 false) (x blob) (R blob))
    (hraw : ∀ {blob a bs ms}, R blob a bs ms → ∀ blob', ∃ raw, R blob' (f a raw) bs ms) :
    Delimits (fun blob => finish ((x blob).run (Parser.new blob options))) x options := by
  have htruncation : ∀ blob k, AcceptsAfter x options blob k → ∀ j < k, ∀ a,
      finish ((x (blob.take j)).run (Parser.new (blob.take j) options)) ≠ .ok a := by
    rintro blob _ ⟨a, p, hrun, rfl⟩ j hj b hcut
    have hsame : ∀ a bs ms, R (blob.take j) a bs ms → ∃ b, R blob b bs ms := by
      intro a bs ms hR
      obtain ⟨raw, hR'⟩ := hraw hR blob
      exact ⟨_, hR'⟩
    have hle := Parser.pos_le_of_truncated (h blob) (h (blob.take j)) hsame hrun hcut
    omega
  refine ⟨htruncation, ?_⟩
  rintro blob blob' ⟨a, p, hrun, _⟩ hexact hprefix
  have hblob : blob'.take blob.length = blob := (List.prefix_iff_eq_take.mp hprefix).symm
  refine hprefix.eq_of_length_le (Nat.le_of_not_lt fun hlt => ?_)
  refine htruncation blob' _ hexact blob.length hlt a ?_
  rw [hblob]
  exact Parser.finish_ok_iff.mpr ⟨p, hrun⟩

/-- Whatever the recursion limit, no truncation of a signature is accepted, as this signature
or as another, and no blob that is accepted exactly is a proper prefix of another. -/
theorem signatures_delimit (options : SignatureOptions) :
    Delimits (MethodSig.parseWith · options) (fun _ => MethodSig.parser options.limit) options ∧
    Delimits (FieldSig.parseWith · options) (FieldSig.parser options.limit) options ∧
    Delimits (LocalVarSig.parseWith · options) (LocalVarSig.parser options.limit) options ∧
    Delimits (PropertySig.parseWith · options) (PropertySig.parser options.limit) options ∧
    Delimits (MethodSpecSig.parseWith · options) (MethodSpecSig.parser options.limit) options ∧
    Delimits (TypeSpecSig.parseWith · options) (TypeSpecSig.parser options.limit) options := by
  refine ⟨?_, ?_, ?_, ?_, ?_, ?_⟩
  · exact Parser.delimits (R := fun _ => MethodSig.grammar options.limit) (f := fun m _ => m)
      (fun _ => MethodSig.accepts options.limit) fun hR blob => ⟨blob, hR⟩
  · exact Parser.delimits (FieldSig.accepts options.limit) (spelled_of_raw (FieldSig.grammar_raw _))
  · exact Parser.delimits (LocalVarSig.accepts options.limit)
      (spelled_of_raw (LocalVarSig.grammar_raw _))
  · exact Parser.delimits (PropertySig.accepts options.limit)
      (spelled_of_raw (PropertySig.grammar_raw _))
  · exact Parser.delimits (MethodSpecSig.accepts options.limit)
      (spelled_of_raw (MethodSpecSig.grammar_raw _))
  · exact Parser.delimits (TypeSpecSig.accepts options.limit)
      (spelled_of_raw (TypeSpecSig.grammar_raw _))

end Cildec
