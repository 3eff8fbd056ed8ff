import Lockstep.Proofs.Classes
import Lockstep.Proofs.WellFormed

/-!
# What the instruction of a class reads

Ranges in any order, which may overlap, touch, be inverted or reach past the last code point, become
one instruction that reads the code points of the ranges, or those that they leave out; or no
instruction, if there are none. On the way nothing is added to the greatest 32-bit number, and
nothing is taken from zero.

- `Symbol.succ?`, `Symbol.pred?`: the symbols beside a symbol, if there are any.
- `SymbolRange.normalize?`, `SymbolRange.complement?`: the normal form and the complement with these
  for the arithmetic; `normalize?_eq`, `complement?_eq`: they come to the same.
- `Program.BuiltOn`: a finished program keeps what a builder had at some time.
- `Program.ReadsAt`: what is read where a fragment is entered.
- `Assembly.Selects`: an action adds what reads some symbols, or there is no room for it.
- `Expr.selects_ranges`: so do the actions of classes.
-/

namespace Lockstep

/-! ## Arithmetic that does not wrap around -/

namespace Symbol

/-- The symbol after another one; the greatest 32-bit number has none. -/
def succ? (r : Symbol) : Option Symbol := if r.toNat + 1 < UInt32.size then some (r + 1) else none

/-- The symbol before another one; zero has none. -/
def pred? (r : Symbol) : Option Symbol := if 0 < r.toNat then some (r - 1) else none

theorem succ?_eq {r : Symbol} (h : r.toNat ≤ 0x10FFFF) : r.succ? = some (r + 1) := by
  refine if_pos ?_
  show r.toNat + 1 < 4294967296
  omega

theorem pred?_eq {r : Symbol} (h : 0 < r.toNat) : r.pred? = some (r - 1) := if_pos h

end Symbol

namespace SymbolRange

/-- Joins ranges as `mergeInto` does, unless there is no symbol after a range. -/
def mergeInto? (current : SymbolRange) : List SymbolRange → Option (List SymbolRange)
  | [] => some [current]
  | range :: rest => do
    let behind ← current.hi.succ?
    if range.lo ≤ behind then
      mergeInto? ⟨current.lo, max current.hi range.hi⟩ rest
    else
      return current :: (← mergeInto? range rest)

/-- Joins ranges as `merge` does, unless there is no symbol after a range. -/
def merge? : List SymbolRange → Option (List SymbolRange)
  | [] => some []
  | range :: rest => mergeInto? range rest

/-- The normal table of some ranges, unless there is no symbol after one that is joined. -/
def normalize? (ranges : List SymbolRange) : Option (List SymbolRange) :=
  merge? ((ranges.filterMap clamp?).mergeSort le)

/-- The gaps of a table, unless there is no symbol after a range, or none before a gap ends. -/
def gapsFrom? (next : Symbol) : List SymbolRange → Option (List SymbolRange)
  | [] => some (if next ≤ Symbol.greatest then [⟨next, Symbol.greatest⟩] else [])
  | range :: rest => do
    let behind ← range.hi.succ?
    if next < range.lo then
      let last ← range.lo.pred?
      return ⟨next, last⟩ :: (← gapsFrom? behind rest)
    else
      gapsFrom? behind rest

/-- The complement of a table, unless there is no symbol beside the ends of a range. -/
def complement? (table : List SymbolRange) : Option (List SymbolRange) := gapsFrom? 0 table

variable {current : SymbolRange} {ranges table : List SymbolRange}

/-- Joining ranges that are cut off needs no symbol past the last code point but one. -/
theorem mergeInto?_eq (h : Mergeable (current :: ranges)) :
    mergeInto? current ranges = some (mergeInto current ranges) := by
  induction ranges generalizing current with
  | nil => rfl
  | cons range ranges ih =>
    have hsucc := Symbol.succ?_eq (h.proper current List.mem_cons_self).2
    rw [mergeInto?, hsucc, mergeInto, Option.bind_eq_bind, Option.bind_some]
    split
    · exact ih h.join
    · rw [ih h.tail]
      rfl

/-- **No arithmetic of the normal form wraps around.** -/
theorem normalize?_eq (ranges : List SymbolRange) :
    normalize? ranges = some (normalize ranges) := by
  have hsorted := mergeable_sorted ranges
  unfold normalize? normalize
  cases hlist : (ranges.filterMap clamp?).mergeSort le with
  | nil => rfl
  | cons range rest => exact mergeInto?_eq (hlist ▸ hsorted)

theorem gapsFrom?_eq (h : Normal table) (next : Symbol) :
    gapsFrom? next table = some (gapsFrom next table) := by
  induction table generalizing next with
  | nil => rfl
  | cons range rest ih =>
    have hsucc := Symbol.succ?_eq (h.proper range List.mem_cons_self).2
    rw [gapsFrom?, hsucc, gapsFrom, Option.bind_eq_bind, Option.bind_some, ih h.2.2.2]
    split
    -- a gap ends before a symbol that is not zero
    · next hlt =>
      have hpos : 0 < range.lo.toNat := Nat.zero_lt_of_lt (UInt32.lt_iff_toNat_lt.mp hlt)
      rw [Symbol.pred?_eq hpos]
      rfl
    · rfl

/-- **No arithmetic of the complement wraps around.** -/
theorem complement?_eq (h : Normal table) : complement? table = some (complement table) :=
  gapsFrom?_eq h 0

end SymbolRange

/-! ## Programs built on a fragment -/

/-- What fills an instruction that reads a symbol reads the same ones. -/
theorem Instr.Fills.exists_consume {n : Nat} {a : Instr (Fin n)} {cls : SymbolClass} {edge : Edge}
    (h : (a.map fun t => some t.val).Fills (.consume cls edge)) :
    ∃ next, a = .consume cls next := by
  have hsame := h.same
  cases a with
  | consume cls' next =>
    cases hsame
    exact ⟨next, rfl⟩
  | fork | save | assert | jump | fail | accept => cases hsame

namespace Program

variable {P : Program} {b : Builder} {f : Fragment} {r : Symbol}

/-- The program was finished, with its forks flattened or not, from a builder to which more may have
been added; as everywhere, the instruction at address 0 is `fail`. -/
def BuiltOn (P : Program) (b : Builder) : Prop :=
  ∃ b', b.Grows b' ∧ b'.code[0]? = some .fail ∧ (b'.freezeBinary = .ok P ∨ b'.freeze = .ok P)

/-- There is a program whose forks are as they were built; the other one differs in forks only. -/
theorem BuiltOn.exists_realises (h : P.BuiltOn b) :
    ∃ Q : Program, Q.Realises b ∧ Q.Rooted ∧ ∃ code, P = Q.withCode code ∧ Q.Resembles code := by
  obtain ⟨b', hgrows, hroot, hfreeze⟩ := h
  have hkeeps : ∀ Q : Program, b'.finish = .ok Q → Q.Realises b ∧ Q.Rooted := by
    intro Q hfinish
    have hfinishes : Q.Finishes b' := finishes_of_finish hfinish
    obtain ⟨hpos, hfills⟩ := hfinishes.realises.instr 0 .fail hroot
    exact ⟨hfinishes.realises.mono hgrows, hpos, hfills.eq_fail⟩
  rcases hfreeze with hbinary | hflat
  · obtain ⟨hrealises, hrooted⟩ := hkeeps P (Builder.freezeBinary_eq_ok_iff.mp hbinary)
    exact ⟨P, hrealises, hrooted, P.code, rfl, fun _ => .inl rfl⟩
  · obtain ⟨Q, hfinish, rfl⟩ := Builder.freeze_eq_ok_iff.mp hflat
    obtain ⟨hrealises, hrooted⟩ := hkeeps Q hfinish
    exact ⟨Q, hrealises, hrooted, Q.flatten.code, rfl, (rewired_flatten Q).resembles⟩

/-- What reads a symbol in the builder reads the same ones in the program. -/
theorem BuiltOn.exists_consume (h : P.BuiltOn b) {pc : Nat} {cls : SymbolClass} {edge : Edge}
    (hi : b.code[pc]? = some (.consume cls edge)) :
    ∃ (hpc : pc < P.size) (next : Fin P.size), P.instr ⟨pc, hpc⟩ = .consume cls next := by
  obtain ⟨Q, hrealises, -, code, rfl, hresembles⟩ := h.exists_realises
  obtain ⟨hpc, hfills⟩ := hrealises.instr pc _ hi
  obtain ⟨next, hnext⟩ := hfills.exists_consume
  refine ⟨hpc, next, Eq.trans ?_ hnext⟩
  exact hresembles.instr_of_ne_fork fun arms => by simp [hnext]

theorem BuiltOn.rooted (h : P.BuiltOn b) : P.Rooted := by
  obtain ⟨Q, -, ⟨hpos, hfail⟩, code, rfl, hresembles⟩ := h.exists_realises
  refine ⟨hpos, Eq.trans ?_ hfail⟩
  exact hresembles.instr_of_ne_fork fun arms => by simp [hfail]

/-- A symbol is read where a fragment is entered. -/
def ReadsAt (P : Program) (f : Fragment) (r : Symbol) : Prop :=
  ∃ (hpc : f.entry < P.size) (cls : SymbolClass) (next : Fin P.size),
    P.instr ⟨f.entry, hpc⟩ = .consume cls next ∧ r ∈ cls

/-- The fragment that never matches reads nothing. -/
theorem Rooted.not_readsAt_never (h : P.Rooted) : ¬ P.ReadsAt .never r := by
  obtain ⟨_, hfail⟩ := h
  rintro ⟨_, cls, next, hconsume, -⟩
  cases hfail.symm.trans hconsume

theorem BuiltOn.readsAt_iff (h : P.BuiltOn b) {cls : SymbolClass} {edge : Edge}
    (hi : b.code[f.entry]? = some (.consume cls edge)) : P.ReadsAt f r ↔ r ∈ cls := by
  obtain ⟨hpc, next, hnext⟩ := h.exists_consume hi
  constructor
  · rintro ⟨_, cls', next', hconsume, hr⟩
    cases hnext.symm.trans hconsume
    exact hr
  · exact fun hr => ⟨hpc, cls, next, hnext, hr⟩

end Program

/-! ## Classes as instructions -/

namespace Assembly

/-- Every program that keeps what the action adds reads the code points that are accepted, and no
others, where the fragment is entered. The action fails only if one more instruction is too many. -/
def Selects (limit : Nat) (act : Assembly Fragment) (accepts : Symbol → Prop) : Prop :=
  ∀ b : Builder, match act b with
    | .error error => error = .programTooLarge (b.code.size + 1) limit ∧ limit < b.code.size + 1
    | .ok (f, b') => ∀ P : Program, P.BuiltOn b' → ∀ r : Symbol, r.toNat ≤ 0x10FFFF →
        (P.ReadsAt f r ↔ accepts r)

variable {limit : Nat} {accepts : Symbol → Prop}

/-- An instruction that reads the symbols of a class. -/
theorem selects_consume {cls : SymbolClass}
    (h : ∀ r : Symbol, r.toNat ≤ 0x10FFFF → (r ∈ cls ↔ accepts r)) :
    Selects limit (consume limit cls) accepts := by
  intro b
  by_cases hlimit : limit < b.code.size + 1
  · have hfull : consume limit cls b = .error (.programTooLarge (b.code.size + 1) limit) := by
      simp only [consume, single, emit, bind, StateT.bind, if_pos hlimit, Except.bind]
    rw [hfull]
    exact ⟨rfl, hlimit⟩
  · have hadds : consume limit cls b =
        .ok (.live b.code.size [⟨b.code.size, 0⟩], b.push (.consume cls none)) := by
      simp only [consume, single, emit, bind, StateT.bind, if_neg hlimit, Except.bind]
      rfl
    rw [hadds]
    intro P hP r hr
    have hi : (b.push (.consume cls none)).code[b.code.size]? = some (.consume cls none) :=
      Array.getElem?_push_size
    exact (hP.readsAt_iff (f := .live b.code.size [⟨b.code.size, 0⟩]) hi).trans (h r hr)

/-- The fragment of a normal table reads the code points of the table. -/
theorem selects_oneOf {table : List SymbolRange} (hnormal : SymbolRange.Normal table)
    (h : ∀ r : Symbol, r.toNat ≤ 0x10FFFF → (SymbolRange.Covers table r ↔ accepts r)) :
    Selects limit (oneOf limit table) accepts := by
  unfold oneOf
  cases hcls : SymbolClass.ofNormal? table with
  | none =>
    intro b P hP r hr
    rw [SymbolClass.ofNormal?_eq_none_iff.mp hcls] at h
    rw [← h r hr]
    exact iff_of_false hP.rooted.not_readsAt_never SymbolRange.covers_nil
  | some cls =>
    exact selects_consume fun r hr => (SymbolClass.mem_ofNormal? hnormal hcls hr).trans (h r hr)

end Assembly

namespace Expr

open SymbolRange Assembly

/-- **A class reads the code points of its ranges**, and a negated class reads the others, whatever
the ranges are and whatever else is in the program. Their normal form is sorted, without overlaps
and without ranges that touch, and no arithmetic on the way wraps around. -/
theorem selects_ranges (ranges : List SymbolRange) (limit : Nat) :
    (Normal (normalize ranges) ∧ normalize? ranges = some (normalize ranges) ∧
        complement? (normalize ranges) = some (complement (normalize ranges))) ∧
      Selects limit (assemble limit (.oneOf ranges)) (Covers ranges) ∧
      Selects limit (assemble limit (.noneOf ranges)) fun r => ¬ Covers ranges r := by
  have hnormal : Normal (normalize ranges) := normal_normalize ranges
  refine ⟨⟨hnormal, normalize?_eq ranges, complement?_eq hnormal⟩, ?_, ?_⟩
  · rw [assemble]
    exact selects_oneOf hnormal fun r hr => covers_normalize hr
  · rw [assemble]
    refine selects_oneOf (normal_complement hnormal) fun r hr => ?_
    rw [covers_complement hnormal, and_iff_right hr, covers_normalize hr]

/-- Ranges that overlap, touch, are inverted and reach past the last code point. -/
theorem selects_ranges_untidy :
    let ranges : List SymbolRange := [⟨5, 3⟩, ⟨0x41, 0x5F⟩, ⟨0x50, 0x5A⟩, ⟨0x60, 0x7A⟩,
      ⟨0x10FFFE, 0xFFFFFFFF⟩, ⟨0x110000, 0x110005⟩]
    let f : Fragment := .live 1 [⟨1, 0⟩]
    ∃ (b : Builder) (P : Program),
      (Expr.oneOf ranges).assemble 10 { code := #[.fail] } = .ok (f, b) ∧
      P.BuiltOn b ∧ P.ReadsAt f 0x5E ∧ P.ReadsAt f 0x10FFFF ∧ ¬ P.ReadsAt f 4 := by
  intro ranges f
  let table : List SymbolRange := [⟨0x41, 0x7A⟩, ⟨0x10FFFE, 0x10FFFF⟩]
  let b : Builder := { code := #[.fail, .consume (.ranges table.toArray) none] }
  let b' : Builder := ((b.push .accept).link [⟨1, 0⟩] 2).startAt 1
  have htable : normalize ranges = table := by
    unfold SymbolRange.normalize
    rw [List.mergeSort_of_pairwise (by decide)]
    rfl
  have hassemble : (Expr.oneOf ranges).assemble 10 { code := #[.fail] } = .ok (f, b) := by
    rw [assemble, htable]
    rfl
  have hbuild : (Expr.oneOf ranges).build 10 = .ok b' := by
    rw [build, assemble, htable]
    rfl
  have hcomplete : b'.Complete := ((Expr.oneOf ranges).complete_build 10).2 b' hbuild
  obtain ⟨P, hfinish⟩ := hcomplete.exists_finish
  have hgroup : (Instr.accept : Instr Edge).SavesGroup := by
    rintro slot next ⟨⟩
  have hbuilt : P.BuiltOn b := by
    have hgrows : b.Grows ((b.push .accept).link [⟨1, 0⟩] 2) :=
      (Builder.grows_push hgroup b).trans (Builder.grows_link _ _ _)
    exact ⟨b', ⟨hgrows.code, hgrows.links, hgrows.groups⟩, rfl,
      .inl (congrArg (Except.mapError Error.malformed) hfinish)⟩
  have hselects := (selects_ranges ranges 10).2.1 { code := #[.fail] }
  rw [hassemble] at hselects
  have hreads := hselects P hbuilt
  exact ⟨b, P, hassemble, hbuilt, (hreads 0x5E (by decide)).mpr (by decide),
    (hreads 0x10FFFF (by decide)).mpr (by decide),
    mt (hreads 4 (by decide)).mp (by decide : ¬ Covers ranges 4)⟩

end Expr

end Lockstep
