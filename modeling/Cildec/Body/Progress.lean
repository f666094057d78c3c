import Cildec.Body.Strict
import Cildec.Lib.Credit
import Mathlib.Data.List.Chain

/-!
# The section walk makes progress

`walkSections` is `parseSections` with a record of its rounds: where the cursor stood when a
round began and how many clauses the round reserved room for. Bytes pay for both: a section
takes its four header bytes, and twelve at least for every clause.

* `walkSections_run`: the walk is the one the parser makes;
* `walkSections_spends`: what its rounds cost, by induction along the chain;
* `sections_progress`: how many rounds there are, and how many clauses they reserve.
-/

namespace Cildec

open Wire

/-! ## One round -/

/-- What a section body is, with the count that `handlers.reserve` is called with. -/
def decodeSectionLogged (strictness : Strictness) (kind : UInt8) (fat : Bool)
    (sectionStart : Nat) (body : List UInt8) : Logged Error Reader Nat Sections :=
  if kind &&& 0x01 != 0 then do
    let diagnostics ←
      Logged.silent (Wire.ofExcept (checkWholeClauses strictness fat body.length sectionStart))
    Logged.log fun _ => body.length / clauseSize fat
    let handlers ← Logged.silent (Wire.ofExcept (readClauses body fat sectionStart))
    return ⟨diagnostics, handlers, []⟩
  else
    return ⟨[], [], [⟨kind, body⟩]⟩

/-- One section, with what it reserves. -/
def readSectionLogged (strictness : Strictness) : Logged Error Reader Nat (Sections × Bool) := do
  Logged.silent (Reader.alignTo 0 4)
  let r ← Logged.silent get
  let sectionStart := r.position
  let kind ← Logged.silent Reader.u8
  let fat := kind &&& 0x40 != 0
  let more := kind &&& 0x80 != 0
  let declared ← Logged.silent (readDataSize fat)
  let r ← Logged.silent get
  let (bodySize, sizeDiagnostics) ← Logged.silent (Wire.ofExcept
    (sectionBodySize strictness (kind &&& 0x01 != 0) fat declared r.remaining sectionStart))
  let (bodySize, clampDiagnostics) ← Logged.silent (Wire.ofExcept
    (clampBodySize strictness declared bodySize r.remaining sectionStart))
  let body ← Logged.silent (Reader.take bodySize)
  let decoded ← decodeSectionLogged strictness kind fat sectionStart body
  return (Sections.append ⟨sizeDiagnostics ++ clampDiagnostics, [], []⟩ decoded, more)

/-- `x` runs as `y` does. -/
abbrev Erases (x : Logged Error Reader Nat α) (y : Read α) : Prop :=
  Traces (fun _ => True) (fun _ => True) (fun _ _ => True) x y

theorem Erases.silent (p : Read α) : Erases (Logged.silent p) p :=
  Traces.silent fun _ _ _ _ _ => trivial

theorem erases_decodeSection (strictness : Strictness) (kind : UInt8) (fat : Bool)
    (sectionStart : Nat) (body : List UInt8) :
    Erases (decodeSectionLogged strictness kind fat sectionStart body)
      (Wire.ofExcept (decodeSection strictness kind fat sectionStart body)) := by
  have hread : Erases (do
      let diagnostics ← Logged.silent
        (Wire.ofExcept (checkWholeClauses strictness fat body.length sectionStart))
      Logged.log fun _ => body.length / clauseSize fat
      let handlers ← Logged.silent (Wire.ofExcept (readClauses body fat sectionStart))
      return (⟨diagnostics, handlers, []⟩ : Sections)) (do
      let diagnostics ← Wire.ofExcept (checkWholeClauses strictness fat body.length sectionStart)
      let handlers ← Wire.ofExcept (readClauses body fat sectionStart)
      return (⟨diagnostics, handlers, []⟩ : Sections)) :=
    (Erases.silent _).bind fun _ => Traces.log_bind (fun _ _ => trivial)
      ((Erases.silent _).bind fun _ => Traces.pure fun _ _ => trivial)
  rw [decodeSectionLogged, decodeSection]
  by_cases hkind : (kind &&& 0x01 != 0) = true
  · rw [if_pos hkind, if_pos hkind]
    cases hdiagnostics : checkWholeClauses strictness fat body.length sectionStart with
    | error e => rwa [hdiagnostics] at hread
    | ok diagnostics =>
        cases hhandlers : readClauses body fat sectionStart with
        | error e => rwa [hdiagnostics, hhandlers] at hread
        | ok handlers => rwa [hdiagnostics, hhandlers] at hread
  · rw [if_neg hkind, if_neg hkind]
    exact Traces.pure fun _ _ => trivial

theorem erases_section (strictness : Strictness) :
    Erases (readSectionLogged strictness) (readSection strictness) :=
  (Erases.silent _).bind fun _ => (Erases.silent get).bind fun _ =>
    (Erases.silent _).bind fun _ => (Erases.silent _).bind fun _ =>
    (Erases.silent get).bind fun _ => (Erases.silent _).bind fun _ =>
    (Erases.silent _).bind fun _ => (Erases.silent _).bind fun _ =>
    (erases_decodeSection _ _ _ _ _).bind fun _ => Traces.pure fun _ _ => trivial

theorem readSectionLogged_run (strictness : Strictness) (r : Reader) :
    (readSectionLogged strictness r).1 = (readSection strictness).run r :=
  (erases_section strictness).run r trivial

/-! ## What a round costs -/

theorem twelve_le_clauseSize (fat : Bool) : 12 ≤ clauseSize fat := by
  cases fat <;> decide

/-- Twelve bytes for each clause. -/
abbrev clauseBytes (count : Nat) : Nat := 12 * count

theorem clauseBytes_le (length : Nat) (fat : Bool) :
    clauseBytes (length / clauseSize fat) ≤ length :=
  calc 12 * (length / clauseSize fat)
    _ ≤ clauseSize fat * (length / clauseSize fat) :=
      Nat.mul_le_mul_right _ (twelve_le_clauseSize fat)
    _ ≤ length := Nat.mul_div_le length (clauseSize fat)

/-- The clauses of a table are paid for by its bytes. -/
theorem pays_decodeSection (strictness : Strictness) (kind : UInt8) (fat : Bool)
    (sectionStart : Nat) (body : List UInt8) :
    Pays clauseBytes (4 + body.length) (fun _ => 4)
      (decodeSectionLogged strictness kind fat sectionStart body) := by
  refine Pays.ite (fun _ => ?_) fun _ => Pays.pure (Nat.le_add_right 4 body.length)
  refine (Pays.silent_ofExcept _).bind fun _ => ?_
  have hcount := clauseBytes_le body.length fat
  have hlog : Pays clauseBytes (4 + body.length) (fun _ => 4)
      (Logged.log fun _ => body.length / clauseSize fat : Logged Error Reader Nat Unit) :=
    Pays.log (Nat.add_le_add_left hcount 4)
  refine hlog.bind fun _ => ?_
  exact (Pays.silent_ofExcept _).bind fun _ => Pays.pure le_rfl

/-- A section pays for its clauses and has four bytes left over. -/
theorem pays_section (strictness : Strictness) :
    Pays clauseBytes 0 (fun _ => 4) (readSectionLogged strictness) := by
  have halign : Pays clauseBytes 0 (fun _ => 0) (Logged.silent (Reader.alignTo 0 4)) :=
    Pays.silent (consumes_alignTo 0 4) fun _ _ _ => Nat.zero_le _
  have hkind : Pays clauseBytes 0 (fun _ => 1) (Logged.silent Reader.u8) :=
    Pays.silent Reader.reads_u8 fun bs _ h => by rw [h, List.length_singleton]
  have hsize (fat : Bool) : Pays clauseBytes 1 (fun _ => 4) (Logged.silent (readDataSize fat)) :=
    Pays.silent (consumes_dataSize fat) fun _ _ h => Nat.add_le_add_left h 1
  have hbody (n : Nat) :
      Pays clauseBytes 4 (fun bs => 4 + bs.length) (Logged.silent (Reader.take n)) :=
    Pays.silent (Reader.reads_take n) fun bs _ h => by rw [h.1]
  exact halign.bind fun _ => Pays.get.bind fun _ => hkind.bind fun _ => (hsize _).bind fun _ =>
    Pays.get.bind fun _ => (Pays.silent_ofExcept _).bind fun _ =>
    (Pays.silent_ofExcept _).bind fun _ =>
    (hbody _).bind fun _ => (pays_decodeSection _ _ _ _ _).bind fun _ => Pays.pure le_rfl

/-! ## The walk -/

/-- A round of the loop: where it began, and the counts it called `reserve` with. -/
structure Round where
  start : Nat
  reserved : List Nat
  deriving DecidableEq, Repr

theorem remaining_lt_of_logged {strictness : Strictness} {r r' : Reader} {a : Sections × Bool}
    {reserved : List Nat} (h : readSectionLogged strictness r = (.ok a r', reserved)) :
    r'.remaining < r.remaining := by
  have hrun := readSectionLogged_run strictness r
  rw [h] at hrun
  exact remaining_lt_of_section hrun.symm

/-- The chain of sections, with its rounds, the one that returns included. -/
def walkSections (strictness : Strictness) (sections : Sections) (r : Reader) :
    EStateM.Result Error Reader Sections × List Round :=
  match _h : readSectionLogged strictness r with
  | (.error e r', reserved) => (.error e r', [⟨r.position, reserved⟩])
  | (.ok (decoded, more) r', reserved) =>
      let sections := sections.append decoded
      if !more then
        (.ok sections r', [⟨r.position, reserved⟩])
      else if r'.isEmpty then
        if strictness.isStrict then
          (.error (Error.new .truncated r'.position bodyContext) r', [⟨r.position, reserved⟩])
        else (.ok sections r', [⟨r.position, reserved⟩])
      else
        let tail := walkSections strictness sections r'
        (tail.1, ⟨r.position, reserved⟩ :: tail.2)
termination_by r.remaining
decreasing_by exact remaining_lt_of_logged _h

/-- The clauses that rounds reserve room for. -/
def reservedClauses (rounds : List Round) : Nat := (rounds.flatMap Round.reserved).sum

theorem walkSections_eq (strictness : Strictness) (sections : Sections) (r : Reader) :
    walkSections strictness sections r =
      match readSectionLogged strictness r with
      | (.error e r', reserved) => (.error e r', [⟨r.position, reserved⟩])
      | (.ok (decoded, more) r', reserved) =>
          if !more then (.ok (sections.append decoded) r', [⟨r.position, reserved⟩])
          else if r'.isEmpty then
            if strictness.isStrict then
              (.error (Error.new .truncated r'.position bodyContext) r', [⟨r.position, reserved⟩])
            else (.ok (sections.append decoded) r', [⟨r.position, reserved⟩])
          else
            ((walkSections strictness (sections.append decoded) r').1,
              ⟨r.position, reserved⟩ ::
                (walkSections strictness (sections.append decoded) r').2) := by
  rw [walkSections]
  split <;> simp_all

/-- The walk is the one that the parser makes. -/
theorem walkSections_run (strictness : Strictness) (sections : Sections) (r : Reader) :
    (walkSections strictness sections r).1 = (parseSections strictness sections).run r := by
  induction sections, r using chain_induction (s := strictness) with
  | step sections r ih =>
      have hrun := readSectionLogged_run strictness r
      rw [parseSections_run, walkSections_eq]
      rcases hlogged : readSectionLogged strictness r with
        ⟨⟨⟨decoded, more⟩, r'⟩ | ⟨e, r'⟩, reserved⟩
      · rw [hlogged] at hrun
        rw [← hrun]
        cases more with
        | false => rfl
        | true =>
            cases hempty : r'.isEmpty with
            | false =>
                simp only [Bool.not_true, Bool.false_eq_true, if_false, hempty]
                exact ih decoded r' hrun.symm
            | true =>
                cases strictness with
                | strict => simp [hempty, Strictness.isStrict]
                | permissive => simp [hempty, Strictness.isStrict]
      · rw [hlogged] at hrun
        rw [← hrun]

/-- What the rounds of a walk from `r` cost: the ones that go on move the cursor four bytes at
least, and the clauses take twelve each. -/
structure Spends (r : Reader) (run : EStateM.Result Error Reader Sections × List Round) :
    Prop where
  head : ∃ reserved tail, run.2 = ⟨r.pos, reserved⟩ :: tail
  chain : run.2.IsChain fun a b => a.start + 4 ≤ b.start
  any : 4 * run.2.length + 12 * reservedClauses run.2 ≤ r.remaining + 4
  ok : ∀ out r', run.1 = .ok out r' → 4 * run.2.length + 12 * reservedClauses run.2 ≤ r.remaining

theorem totalWeight_clauseBytes (reserved : List Nat) :
    totalWeight clauseBytes reserved = 12 * reserved.sum := by
  induction reserved with
  | nil => rfl
  | cons count tail ih =>
      have hcons : totalWeight clauseBytes (count :: tail) =
          clauseBytes count + totalWeight clauseBytes tail := totalWeight_append [count] tail
      rw [hcons, ih, List.sum_cons, Nat.mul_add]

theorem reservedClauses_cons (round : Round) (rounds : List Round) :
    reservedClauses (round :: rounds) = round.reserved.sum + reservedClauses rounds := by
  rw [reservedClauses, List.flatMap_cons, List.sum_append]
  rfl

/-- A walk of one round, which has paid for what it reserved. -/
theorem Spends.last {r : Reader} {reserved : List Nat}
    {result : EStateM.Result Error Reader Sections}
    (hany : 12 * reserved.sum ≤ r.remaining)
    (hok : ∀ out r', result = .ok out r' → 4 + 12 * reserved.sum ≤ r.remaining) :
    Spends r (result, [⟨r.position, reserved⟩]) := by
  have hsum : reservedClauses [⟨r.position, reserved⟩] = reserved.sum := reservedClauses_cons _ []
  constructor
  case head => exact ⟨reserved, [], rfl⟩
  case chain => exact .singleton _
  case any =>
    rw [hsum, List.length_singleton]
    omega
  case ok =>
    intro out r' hrun
    rw [hsum, List.length_singleton]
    exact hok out r' hrun

/-- A round that takes its section and goes on. -/
theorem Spends.cons {r r' : Reader} {reserved : List Nat}
    {run : EStateM.Result Error Reader Sections × List Round} (h : Spends r' run)
    (hpos : r.pos + 4 ≤ r'.pos) (hcost : 4 + 12 * reserved.sum + r'.remaining ≤ r.remaining) :
    Spends r (run.1, ⟨r.position, reserved⟩ :: run.2) := by
  constructor
  case head => exact ⟨reserved, run.2, rfl⟩
  case chain =>
    obtain ⟨reserved', tail, htail⟩ := h.head
    have hchain := h.chain
    rw [htail] at hchain ⊢
    exact List.isChain_cons_cons.mpr ⟨hpos, hchain⟩
  case any =>
    have hany := h.any
    rw [reservedClauses_cons, List.length_cons]
    show 4 * (run.2.length + 1) + 12 * (reserved.sum + reservedClauses run.2) ≤ _
    omega
  case ok =>
    intro out r'' hrun
    have hok := h.ok out r'' hrun
    rw [reservedClauses_cons, List.length_cons]
    show 4 * (run.2.length + 1) + 12 * (reserved.sum + reservedClauses run.2) ≤ _
    omega

/-- A section that is read moves the cursor four bytes at least. -/
theorem pos_add_four_le {strictness : Strictness} {r r' : Reader} {a : Sections × Bool}
    (h : (readSection strictness).run r = .ok a r') : r.pos + 4 ≤ r'.pos := by
  obtain ⟨bs, hrest, rfl, hlen⟩ := consumes_section strictness r a r' h
  have hpos : (r.advance bs.length).pos = r.pos + bs.length := Reader.advance_pos_of_rest hrest
  show r.pos + 4 ≤ (r.advance bs.length).pos
  omega

theorem walkSections_spends (strictness : Strictness) (sections : Sections) (r : Reader) :
    Spends r (walkSections strictness sections r) := by
  induction sections, r using chain_induction (s := strictness) with
  | step sections r ih =>
      have hrun := readSectionLogged_run strictness r
      rw [walkSections_eq]
      rcases hlogged : readSectionLogged strictness r with
        ⟨⟨⟨decoded, more⟩, r'⟩ | ⟨e, r'⟩, reserved⟩
      · have hcost := (pays_section strictness).ok r _ r' reserved hlogged
        rw [totalWeight_clauseBytes, Reader.cursor_rest, Reader.cursor_rest, Reader.rest_length,
          Reader.rest_length] at hcost
        have hlast (result : EStateM.Result Error Reader Sections) :
            Spends r (result, [⟨r.position, reserved⟩]) :=
          Spends.last (by omega) fun _ _ _ => by omega
        rw [hlogged] at hrun
        cases more with
        | false => exact hlast _
        | true =>
            cases hempty : r'.isEmpty with
            | false =>
                simp only [Bool.not_true, Bool.false_eq_true, if_false, hempty]
                exact (ih decoded r' hrun.symm).cons (pos_add_four_le hrun.symm) (by omega)
            | true =>
                simp only [Bool.not_true, Bool.false_eq_true, if_false, hempty, if_true]
                split
                · exact hlast _
                · exact hlast _
      · have hcost := (pays_section strictness).error r e r' reserved hlogged
        rw [totalWeight_clauseBytes, Reader.cursor_rest, Reader.rest_length] at hcost
        exact Spends.last (by omega) fun _ _ h => nomatch h

/-- Every round that goes on moves the cursor by four bytes at least, so the rounds that do are
at most a quarter of the bytes that remain, and where the walk succeeds so are all of them. Where
it fails there can be one round more. The clauses that are reserved are at most a twelfth of the
bytes that remain. -/
theorem sections_progress (strictness : Strictness) (sections : Sections) (r : Reader) :
    (walkSections strictness sections r).1 = (parseSections strictness sections).run r ∧
    (∃ reserved tail, (walkSections strictness sections r).2 = ⟨r.pos, reserved⟩ :: tail) ∧
    (walkSections strictness sections r).2.IsChain (fun a b => a.start + 4 ≤ b.start) ∧
    (walkSections strictness sections r).2.length ≤ r.remaining / 4 + 1 ∧
    (∀ out r', (parseSections strictness sections).run r = .ok out r' →
      (walkSections strictness sections r).2.length ≤ r.remaining / 4) ∧
    (4 ≤ r.pos → (walkSections strictness sections r).2.length ≤ r.data.length / 4) ∧
    reservedClauses (walkSections strictness sections r).2 ≤ r.remaining / 12 := by
  have hrun := walkSections_run strictness sections r
  obtain ⟨hhead, hchain, hany, hok⟩ := walkSections_spends strictness sections r
  have hremaining : r.remaining = r.data.length - r.pos := rfl
  obtain ⟨reserved, tail, hrounds⟩ := hhead
  have hnonempty := congrArg List.length hrounds
  rw [List.length_cons] at hnonempty
  refine ⟨hrun, ⟨reserved, tail, hrounds⟩, hchain, by omega, ?_, ?_, by omega⟩
  · intro out r' h
    have hcost := hok out r' (hrun.trans h)
    omega
  · intro hpos
    have hinside := r.pos_le
    omega

/-- A walk whose last round fails: on five bytes the loop is entered a second time. -/
theorem rounds_past_quarter :
    ¬ ∀ (strictness : Strictness) (sections : Sections) (r : Reader),
      (walkSections strictness sections r).2.length ≤ r.data.length / 4 := by
  intro h
  have hfirst : readSectionLogged .permissive (Reader.new [0x80, 0, 0, 0, 0] 0 bodyContext) =
      (.ok (⟨[], [], [⟨0x80, []⟩]⟩, true)
        ((Reader.new [0x80, 0, 0, 0, 0] 0 bodyContext).moveTo 4), []) := rfl
  have hsecond : readSectionLogged .permissive
      ((Reader.new [0x80, 0, 0, 0, 0] 0 bodyContext).moveTo 4) =
        (.error (Error.new .truncated 5 bodyContext)
          ((Reader.new [0x80, 0, 0, 0, 0] 0 bodyContext).moveTo 5), []) := rfl
  have hwalk : (walkSections .permissive ⟨[], [], []⟩
      (Reader.new [0x80, 0, 0, 0, 0] 0 bodyContext)).2 = [⟨0, []⟩, ⟨4, []⟩] := by
    rw [walkSections_eq, hfirst]
    show _ :: (walkSections .permissive _ _).2 = _
    rw [walkSections_eq, hsecond]
    rfl
  have hle := h .permissive ⟨[], [], []⟩ (Reader.new [0x80, 0, 0, 0, 0] 0 bodyContext)
  rw [hwalk] at hle
  exact absurd hle (by decide)

end Cildec
