import Lockstep.Proofs.History
import Lockstep.Proofs.Transcoding

/-!
# All matches of a string

One match after the other is looked for, each time from where the one before it ends. Since what a
search answers does not depend on where it began, as long as it began before the match, the matches
are in order, none comes twice, and none is left out but those that lie under another one.

- `Text.readsTo_of_isValid`, `Regex.isValid_behindChar`: from character to character of a string.
- `Program.reference_eq_of_readsTo`: it does not matter where a search begins.
- `Regex.Scans`: what that means for the spans that are found in a string.
- `Regex.Enumerates`: one match looked for after the other, with nothing that ensures an end.
- `Enumerates.sound`, `Enumerates.pairwise`, `Enumerates.complete`: what comes of it.
- `Regex.findAll_complete`: all matches of a string.
-/

namespace Lockstep

/-! ## From character to character -/

namespace Text

variable {s : String} {i j : (ofString s).Offset}

theorem readsTo_of_isValid (hi : String.Pos.Raw.isValid s ⟨i⟩ = true)
    (hj : String.Pos.Raw.isValid s ⟨j⟩ = true) (hle : i ≤ j) : (ofString s).ReadsTo i j :=
  (writes_ofString s).readsTo_of_parts (isValid_iff_parts.mp hi) (isValid_iff_parts.mp hj) hle

theorem isValid_of_readsTo (hi : String.Pos.Raw.isValid s ⟨i⟩ = true)
    (hto : (ofString s).ReadsTo i j) : String.Pos.Raw.isValid s ⟨j⟩ = true :=
  isValid_iff_parts.mpr ((writes_ofString s).parts_of_readsTo (isValid_iff_parts.mp hi) hto)

end Text

namespace Regex

/-- Where the enumeration of matches can stand: between two characters, or past the end. -/
def MayStand (text : String) (pos : Nat) : Prop :=
  String.Pos.Raw.isValid text ⟨pos⟩ = true ∨ text.utf8ByteSize < pos

theorem MayStand.isValid {text : String} {pos : Nat} (h : MayStand text pos)
    (hle : pos ≤ text.utf8ByteSize) : String.Pos.Raw.isValid text ⟨pos⟩ = true :=
  h.resolve_right (Nat.not_lt_of_le hle)

theorem le_utf8ByteSize_of_isValid {text : String} {pos : Nat}
    (h : String.Pos.Raw.isValid text ⟨pos⟩ = true) : pos ≤ text.utf8ByteSize :=
  Text.le_endPos_of_isValid h

/-- Behind the character at an offset comes the next offset between two characters; behind the last
of them lies what is past the end. -/
theorem mayStand_behindChar {text : String} {pos : Nat}
    (h : String.Pos.Raw.isValid text ⟨pos⟩ = true) :
    pos < behindChar text pos ∧ MayStand text (behindChar text pos) ∧
      ∀ q, String.Pos.Raw.isValid text ⟨q⟩ = true → pos < q → behindChar text pos ≤ q := by
  have hwrites := Text.writes_ofString text
  obtain ⟨l, r, hcs, rfl⟩ := Text.isValid_iff_parts.mp h
  have hle := le_utf8ByteSize_of_isValid h
  unfold behindChar
  cases r with
  | nil =>
    have hend := hwrites.endPos
    rw [hcs, List.append_nil] at hend
    have hnone : (Text.ofString text).step
        (l.map fun c => (String.utf8EncodeChar c).length).sum = none :=
      Text.step_eq_none_iff.mpr (Nat.le_of_eq hend)
    have hsize : text.utf8ByteSize = (l.map fun c => (String.utf8EncodeChar c).length).sum := hend
    rw [Text.widthAt, hnone]
    refine ⟨by simp, .inr (by simp [hsize]), fun q hq hlt => ?_⟩
    have := le_utf8ByteSize_of_isValid hq
    omega
  | cons c r =>
    have hstep := hwrites.step l c r hcs
    have hcs' : text.toList = (l ++ [c]) ++ r := by rw [hcs, List.append_assoc]; rfl
    have hwidth := (Text.step_bounds hstep).1
    have hbehind : (l.map fun c => (String.utf8EncodeChar c).length).sum +
        max 1 (String.utf8EncodeChar c).length =
          ((l ++ [c]).map fun c => (String.utf8EncodeChar c).length).sum := by
      rw [Nat.max_eq_right hwidth, List.map_append, List.sum_append, List.map_singleton,
        List.sum_singleton]
    rw [Text.widthAt, hstep]
    show _ < _ + max 1 (String.utf8EncodeChar c).length ∧
      MayStand text (_ + max 1 (String.utf8EncodeChar c).length) ∧
        ∀ q, _ → _ → _ + max 1 (String.utf8EncodeChar c).length ≤ q
    rw [hbehind]
    refine ⟨by omega, .inl (Text.isValid_iff_parts.mpr ⟨l ++ [c], r, hcs', rfl⟩),
      fun q hq hlt => ?_⟩
    obtain ⟨l', r', hcs'', rfl⟩ := Text.isValid_iff_parts.mp hq
    have hlength := (hwrites.sum_lt_iff hcs hcs'').mp hlt
    have hnot := mt (hwrites.sum_lt_iff hcs'' hcs').mp
      (by rw [List.length_append, List.length_singleton]; omega)
    exact Nat.le_of_not_lt hnot

end Regex

/-! ## Where a search begins -/

/-- **It does not matter where a search begins**, as long as no match starts before. -/
theorem Program.reference_eq_of_readsTo {P : Program} {task : Task} {i j : task.text.Offset}
    (hto : task.text.ReadsTo i j) (hnone : ∀ k ∈ task.starts i, k < j → P.explored task k = []) :
    P.reference task j = P.reference task i := by
  induction hto using Relation.ReflTransGen.head_induction_on with
  | refl => rfl
  | @head i k hstep hrest ih =>
    obtain ⟨r, hread⟩ := hstep
    have hlt : i < j := lt_of_lt_of_le (Text.lt_of_read? hread) (Text.ReadsTo.le hrest)
    have hskip : P.reference task i = P.reference task k := by
      rw [reference_of_none (i := i) fun hstart => Task.choose_eq_none_iff.mpr
        (hnone i (Task.mem_starts.mpr ⟨.refl i, hstart⟩) hlt), hread]
    rw [hskip]
    refine ih fun k' hk' hlt' => hnone k' ?_ hlt'
    obtain ⟨hreads, hstart⟩ := Task.mem_starts.mp hk'
    exact Task.mem_starts.mpr ⟨(Text.ReadsTo.of_read hread).trans hreads, hstart⟩

namespace Regex

/-- The spans that are found in a string, given where the search for them begins: they lie behind
that, between characters, and it does not matter where the search begins as long as it is not
behind the start of the span. -/
structure Scans (text : String) (spanFrom : Nat → Option (Nat × Nat)) : Prop where
  bounds : ∀ {pos start stop}, String.Pos.Raw.isValid text ⟨pos⟩ = true →
    spanFrom pos = some (start, stop) → pos ≤ start ∧ start ≤ stop ∧
      String.Pos.Raw.isValid text ⟨start⟩ = true ∧ String.Pos.Raw.isValid text ⟨stop⟩ = true
  persists : ∀ {pos pos'}, String.Pos.Raw.isValid text ⟨pos⟩ = true →
    String.Pos.Raw.isValid text ⟨pos'⟩ = true → pos ≤ pos' →
    (∀ start stop, spanFrom pos = some (start, stop) → pos' ≤ start) → spanFrom pos' = spanFrom pos

/-- The spans that a `Regex` finds. -/
theorem Sound.scans {re : Regex} (h : re.Sound) (hlimit : re.limit = none) {env : Environment}
    (hsearch : env.searchTime = 0) (text : String) :
    Scans text fun pos => (re.spanAt env text pos).1 := by
  let task := re.task (Text.ofString text) 2
  have hspan : ∀ i : (Text.ofString text).Offset, String.Pos.Raw.isValid text ⟨i⟩ = true →
      (re.spanAt env text i).1 = spanAt.span? (.ok (re.program.reference task i)) :=
    fun i hi => h.spanAt_eq i hlimit hsearch hi
  -- what is found starts at the first offset where a match starts
  have hfound : ∀ (i : (Text.ofString text).Offset) (start stop : Nat),
      spanAt.span? (.ok (re.program.reference task i)) = some (start, stop) →
      ∃ j ∈ task.starts i, ∃ k, (Text.ofString text).ReadsTo j k ∧ start = j ∧ stop = k ∧
        ∀ j' ∈ task.starts i, re.program.explored task j' ≠ [] → j ≤ j' := by
    intro i start stop hsome
    cases hwanted : re.program.reference task i with
    | none =>
      rw [hwanted] at hsome
      cases hsome
    | some slots =>
      obtain ⟨j, hj, k, hmem, hleft, hright, hfirst, -⟩ :=
        Program.exists_explored_of_reference h.sparesMatch (le_refl 2) hwanted
      obtain ⟨⟨t, hreach, -⟩, -⟩ := Program.mem_explored_iff.mp ⟨slots, hmem⟩
      rw [hwanted, span?_ok, Option.map_some, hleft, hright] at hsome
      cases hsome
      exact ⟨j, hj, k, Program.readsTo_of_reaches hreach, rfl, rfl, hfirst⟩
  constructor
  · intro pos start stop hpos hsome
    let i : (Text.ofString text).Offset :=
      ⟨pos, Nat.lt_succ_of_le (Text.le_endPos_of_isValid hpos)⟩
    obtain ⟨j, hj, k, hjk, rfl, rfl, -⟩ := hfound i start stop ((hspan i hpos).symm.trans hsome)
    have hij : (Text.ofString text).ReadsTo i j := (Task.mem_starts.mp hj).1
    have hvalid := Text.isValid_of_readsTo (i := i) hpos hij
    exact ⟨hij.le, hjk.le, hvalid, Text.isValid_of_readsTo hvalid hjk⟩
  · intro pos pos' hpos hpos' hle hbefore
    let i : (Text.ofString text).Offset :=
      ⟨pos, Nat.lt_succ_of_le (Text.le_endPos_of_isValid hpos)⟩
    let i' : (Text.ofString text).Offset :=
      ⟨pos', Nat.lt_succ_of_le (Text.le_endPos_of_isValid hpos')⟩
    have hto : (Text.ofString text).ReadsTo i i' := Text.readsTo_of_isValid hpos hpos' hle
    have hreference : re.program.reference task i' = re.program.reference task i := by
      refine Program.reference_eq_of_readsTo hto fun k hk hlt => ?_
      by_contra hne
      cases hsome : spanAt.span? (.ok (re.program.reference task i)) with
      | none =>
        have hisSome : (spanAt.span? (.ok (re.program.reference task i))).isSome =
            (re.program.reference task i).isSome := h.isSome_span?
        rw [hsome] at hisSome
        have hnone : re.program.reference task i = none := by simpa using hisSome.symm
        exact hne (Program.reference_eq_none_iff.mp hnone k hk)
      | some span =>
        obtain ⟨start, stop⟩ := span
        obtain ⟨j, -, -, -, rfl, -, hfirst⟩ := hfound i start stop hsome
        have hge : pos' ≤ (j : Nat) := hbefore j stop ((hspan i hpos).trans hsome)
        have hle : j ≤ k := hfirst k hk hne
        exact absurd hlt (not_lt_of_ge (le_trans (show i' ≤ j from hge) hle))
    show (re.spanAt env text i').1 = (re.spanAt env text i).1
    rw [hspan i hpos, hspan i' hpos', hreference]

namespace Scans

variable {text : String} {spanFrom : Nat → Option (Nat × Nat)} {pos start stop q : Nat}

/-- A search that begins where a span starts finds that span. -/
theorem again (h : Scans text spanFrom) (hpos : String.Pos.Raw.isValid text ⟨pos⟩ = true)
    (hspan : spanFrom pos = some (start, stop)) : spanFrom start = some (start, stop) := by
  obtain ⟨hle, -, hstart, -⟩ := h.bounds hpos hspan
  rw [h.persists hpos hstart hle ?_, hspan]
  intro start' stop' hspan'
  rw [hspan] at hspan'
  cases hspan'
  exact le_refl start

/-- No span starts before the one that is found. -/
theorem le_of_span (h : Scans text spanFrom) (hpos : String.Pos.Raw.isValid text ⟨pos⟩ = true)
    (hq : String.Pos.Raw.isValid text ⟨q⟩ = true) (hle : pos ≤ q) {e : Nat}
    (hspan : spanFrom q = some (q, e)) : ∃ start stop, spanFrom pos = some (start, stop) ∧
      start ≤ q := by
  by_contra hnone
  have hbehind : ∀ start stop, spanFrom pos = some (start, stop) → q ≤ start := by
    intro start stop hsome
    by_contra hlt
    exact hnone ⟨start, stop, hsome, by omega⟩
  have hsame := h.persists hpos hq hle hbehind
  rw [hspan] at hsame
  exact hnone ⟨q, e, hsame.symm, le_refl q⟩

end Scans

/-! ## One match after the other -/

/-- The matches that are found one after the other, from the offset `pos` on, where the match before
them ended at `previous`. Nothing here ensures that the search gets on; so it is finite only because
it does. The text is cut behind an empty match, which has to be between two characters. -/
inductive Enumerates (text : String) (spanFrom : Nat → Option (Nat × Nat)) :
    Nat → Option Nat → List Match → Prop where
  /-- There is nothing behind the end. -/
  | past {pos : Nat} {previous : Option Nat} (hpos : text.utf8ByteSize < pos) :
    Enumerates text spanFrom pos previous []
  /-- Nothing is found any more. -/
  | none {pos : Nat} {previous : Option Nat} (hpos : pos ≤ text.utf8ByteSize)
      (hspan : spanFrom pos = none) : Enumerates text spanFrom pos previous []
  /-- An empty match where the match before it ends is passed over. -/
  | skip {pos stop : Nat} {found : List Match} (hpos : pos ≤ text.utf8ByteSize)
      (hspan : spanFrom pos = some (stop, stop))
      (hcut : String.Pos.Raw.isValid text ⟨stop⟩ = true)
      (rest : Enumerates text spanFrom (resume text stop stop) (some stop) found) :
      Enumerates text spanFrom pos (some stop) found
  /-- Any other match is one of those that are found. -/
  | found {pos start stop : Nat} {previous : Option Nat} {found : List Match}
      (hpos : pos ≤ text.utf8ByteSize) (hspan : spanFrom pos = some (start, stop))
      (hnew : ¬ (start = stop ∧ previous = some stop))
      (hcut : start = stop → String.Pos.Raw.isValid text ⟨stop⟩ = true)
      (rest : Enumerates text spanFrom (resume text start stop) (some stop) found) :
      Enumerates text spanFrom pos previous ({ text, start, stop } :: found)

section Resume

variable {text : String} {start stop : Nat}

/-- The search for the next match begins behind the start of the last one, and not before its
end. -/
theorem resume_spec (hle : start ≤ stop) (hvalid : String.Pos.Raw.isValid text ⟨stop⟩ = true) :
    start < resume text start stop ∧ stop ≤ resume text start stop ∧
      MayStand text (resume text start stop) := by
  unfold resume
  split
  · next heq =>
    obtain ⟨hlt, hstand, -⟩ := mayStand_behindChar hvalid
    exact ⟨by omega, by omega, hstand⟩
  · exact ⟨by omega, le_refl stop, .inl hvalid⟩

/-- Between the end of the last match and where the search for the next one begins, there is at most
the end itself. -/
theorem eq_stop_of_lt_resume (hvalid : String.Pos.Raw.isValid text ⟨stop⟩ = true) {q : Nat}
    (hq : String.Pos.Raw.isValid text ⟨q⟩ = true) (hle : stop ≤ q)
    (hlt : q < resume text start stop) : q = stop ∧ start = stop := by
  unfold resume at hlt
  split at hlt
  · next heq =>
    obtain ⟨-, -, hnext⟩ := mayStand_behindChar hvalid
    rcases Nat.eq_or_lt_of_le hle with heq' | hgt
    · exact ⟨heq'.symm, heq⟩
    · exact absurd (hnext q hq hgt) (Nat.not_le_of_lt hlt)
  · exact absurd hle (Nat.not_le_of_lt hlt)

end Resume

namespace Enumerates

variable {text : String} {spanFrom : Nat → Option (Nat × Nat)} {pos : Nat} {previous : Option Nat}
  {found : List Match}

/-- Each match that is found lies behind where the search stands, between two characters, and a
search that begins at its start finds it again. If it is empty, it is not where the match before
ended. -/
theorem sound (hscans : Scans text spanFrom) (h : Enumerates text spanFrom pos previous found)
    (hstand : MayStand text pos) (hprevious : ∀ e ∈ previous, e ≤ pos) :
    ∀ m ∈ found, m.text = text ∧ pos ≤ m.start ∧ m.start ≤ m.stop ∧
      String.Pos.Raw.isValid text ⟨m.start⟩ = true ∧ String.Pos.Raw.isValid text ⟨m.stop⟩ = true ∧
      spanFrom m.start = some (m.start, m.stop) ∧ (m.start = m.stop → previous ≠ some m.stop) := by
  induction h with
  | past | none => exact fun m hm => absurd hm List.not_mem_nil
  | @skip pos stop found hpos hspan hcut rest ih =>
    intro m hm
    obtain ⟨hstart, hle, -, hvalid⟩ := hscans.bounds (hstand.isValid hpos) hspan
    obtain ⟨hlt, hge, hnext⟩ := resume_spec hle hvalid
    obtain ⟨htext, hbehind, hrest⟩ := ih hnext (by rintro _ ⟨⟩; exact hge) m hm
    exact ⟨htext, by omega, hrest⟩
  | @found pos start stop previous found hpos hspan hnew hcut rest ih =>
    obtain ⟨hstart, hle, hvalidStart, hvalid⟩ := hscans.bounds (hstand.isValid hpos) hspan
    obtain ⟨hlt, hge, hnext⟩ := resume_spec hle hvalid
    intro m hm
    rcases List.mem_cons.mp hm with rfl | hm
    · exact ⟨rfl, hstart, hle, hvalidStart, hvalid, hscans.again (hstand.isValid hpos) hspan,
        fun hempty heq => hnew ⟨hempty, heq⟩⟩
    · obtain ⟨htext, hbehind, hends, hvalidStart', hvalid', hagain, -⟩ :=
        ih hnext (by rintro _ ⟨⟩; exact hge) m hm
      refine ⟨htext, by omega, hends, hvalidStart', hvalid', hagain, fun hempty heq => ?_⟩
      have hbefore := hprevious m.stop heq
      omega

/-- **In order**: each match starts behind the start of those before it and not before their ends,
and if it is empty, not at their ends either. -/
theorem pairwise (hscans : Scans text spanFrom) (h : Enumerates text spanFrom pos previous found)
    (hstand : MayStand text pos) :
    found.Pairwise fun a b =>
      a.start < b.start ∧ a.stop ≤ b.start ∧ ¬ (b.start = b.stop ∧ b.stop = a.stop) := by
  induction h with
  | past | none => exact .nil
  | @skip pos stop found hpos hspan hcut rest ih =>
    obtain ⟨-, hle, -, hvalid⟩ := hscans.bounds (hstand.isValid hpos) hspan
    exact ih (resume_spec hle hvalid).2.2
  | @found pos start stop previous found hpos hspan hnew hcut rest ih =>
    obtain ⟨-, hle, -, hvalid⟩ := hscans.bounds (hstand.isValid hpos) hspan
    obtain ⟨hlt, hge, hnext⟩ := resume_spec hle hvalid
    refine List.pairwise_cons.mpr ⟨fun m hm => ?_, ih hnext⟩
    obtain ⟨-, hbehind, -, -, -, -, hempty⟩ :=
      rest.sound hscans hnext (by rintro _ ⟨⟩; exact hge) m hm
    refine ⟨Nat.lt_of_lt_of_le hlt hbehind, Nat.le_trans hge hbehind, ?_⟩
    rintro ⟨hsame, hends⟩
    exact hempty hsame (congrArg some hends.symm)

/-- **None is left out**: a match that a search finds where it begins is found, or it starts inside
a match that is found, or it is empty and lies at the end of a match that is not. The last may also
be the match before. -/
theorem complete (hscans : Scans text spanFrom) (h : Enumerates text spanFrom pos previous found)
    (hstand : MayStand text pos) {q e : Nat} (hq : String.Pos.Raw.isValid text ⟨q⟩ = true)
    (hle : pos ≤ q) (hspan : spanFrom q = some (q, e)) :
    (∃ m ∈ found, m.start = q ∨ (m.start ≤ q ∧ q < m.stop) ∨
      (q = m.stop ∧ m.start < m.stop ∧ q = e)) ∨ (previous = some q ∧ q = e) := by
  induction h with
  | @past pos previous hpos =>
    have := le_utf8ByteSize_of_isValid hq
    omega
  | @none pos previous hpos hnone =>
    obtain ⟨start, stop, hsome, -⟩ := hscans.le_of_span (hstand.isValid hpos) hq hle hspan
    rw [hnone] at hsome
    cases hsome
  | @skip pos stop found hpos hstop hcut rest ih =>
    obtain ⟨-, hends, -, hvalid⟩ := hscans.bounds (hstand.isValid hpos) hstop
    rcases Nat.lt_or_ge q (resume text stop stop) with hlt | hge
    · obtain ⟨start', stop', hsome, hbefore⟩ :=
        hscans.le_of_span (hstand.isValid hpos) hq hle hspan
      rw [hstop] at hsome
      cases hsome
      obtain ⟨rfl, -⟩ := eq_stop_of_lt_resume hvalid hq hbefore hlt
      have hagain := hscans.again (hstand.isValid hpos) hstop
      rw [hspan] at hagain
      cases hagain
      exact .inr ⟨rfl, rfl⟩
    · exact ih (resume_spec hends hvalid).2.2 hge
  | @found pos start stop previous found hpos hspan' hnew hcut rest ih =>
    obtain ⟨-, hends, -, hvalid⟩ := hscans.bounds (hstand.isValid hpos) hspan'
    obtain ⟨start', stop', hsome, hbefore⟩ := hscans.le_of_span (hstand.isValid hpos) hq hle hspan
    rw [hspan'] at hsome
    cases hsome
    refine .inl ?_
    rcases Nat.lt_or_ge q stop with hinside | hbehind
    · exact ⟨_, List.mem_cons_self, .inr (.inl ⟨hbefore, hinside⟩)⟩
    · rcases Nat.lt_or_ge q (resume text start stop) with hlt | hge
      · obtain ⟨rfl, rfl⟩ := eq_stop_of_lt_resume hvalid hq hbehind hlt
        exact ⟨_, List.mem_cons_self, .inl rfl⟩
      · rcases ih (resume_spec hends hvalid).2.2 hge with ⟨m, hm, hcovers⟩ | ⟨hlast, hempty⟩
        · exact ⟨m, List.mem_cons_of_mem _ hm, hcovers⟩
        · -- an empty match at the end of this one, which is not empty itself
          obtain rfl := Option.some.inj hlast
          have hstart := (resume_spec hends hvalid).1
          have hlonger : start < stop := Nat.lt_of_lt_of_le hstart hge
          exact ⟨_, List.mem_cons_self, .inr (.inr ⟨rfl, hlonger, hempty⟩)⟩

end Enumerates

/-- Offsets between characters, in order, are at most as many as there are characters, and one. -/
theorem length_le_of_starts {text : String} {found : List Match}
    (hvalid : ∀ m ∈ found, String.Pos.Raw.isValid text ⟨m.start⟩ = true)
    (hpairwise : found.Pairwise fun a b => a.start < b.start) :
    found.length ≤ text.length + 1 := by
  let offsets := (List.range (text.length + 1)).map fun k =>
    ((text.toList.take k).map fun c => (String.utf8EncodeChar c).length).sum
  have hnodup : (found.map Match.start).Nodup :=
    (hpairwise.map Match.start fun _ _ h => h).imp Nat.ne_of_lt
  have hsubset : found.map Match.start ⊆ offsets := by
    intro start hstart
    obtain ⟨m, hm, rfl⟩ := List.mem_map.mp hstart
    obtain ⟨l, r, htext, hpos⟩ := Text.isValid_iff_parts.mp (hvalid m hm)
    have hlength := congrArg List.length htext
    rw [List.length_append, String.length_toList] at hlength
    refine List.mem_map.mpr ⟨l.length, List.mem_range.mpr (by omega), ?_⟩
    rw [htext, List.take_left, hpos]
  have hle := (hnodup.subperm hsubset).length_le
  simpa [offsets] using hle

/-! ## All matches -/

/-- The machines of a sound `Regex` are between two calls. -/
theorem Sound.alike {re : Regex} (h : re.Sound) : re.Alike re := by
  have hidle : ∀ m ∈ re.idle, m.Idle ∧ m.kind = re.kind ∧ m.limit = re.limit :=
    fun m hm => ⟨(h.idle m hm).1.idle, (h.idle m hm).2⟩
  exact .intro hidle hidle

/-- **All matches** are found one after the other, and every search for one of them gets on. -/
theorem enumerates_findAllFrom {re re' : Regex} (h : re.Alike re') {env : Environment}
    {text : String} (hscans : Scans text fun pos => (re.spanAt env text pos).1) {pos : Nat}
    (hstand : MayStand text pos) (previous : Option Nat) :
    Enumerates text (fun pos => (re.spanAt env text pos).1) pos previous
      (re'.findAllFrom env text pos previous).1 := by
  induction hleft : text.utf8ByteSize + 1 - pos using Nat.strong_induction_on
    generalizing re' pos previous with
  | _ left ih =>
    rcases Nat.lt_or_ge text.utf8ByteSize pos with hlt | hpos
    · rw [findAllFrom_of_lt hlt]
      exact .past hlt
    · obtain ⟨hanswer, halike⟩ := h.spanAt env text pos
      rcases hre' : re'.spanAt env text pos with ⟨span, re''⟩
      rw [hre'] at hanswer halike
      cases span with
      | none =>
        rw [findAllFrom_of_none hpos hre']
        exact .none hpos hanswer.symm
      | some span =>
        obtain ⟨start, stop⟩ := span
        obtain ⟨hstart, hle, -, hvalid⟩ := hscans.bounds (hstand.isValid hpos) hanswer.symm
        obtain ⟨hlt, -, hnext⟩ := resume_spec hle hvalid
        have hrest := fun previous =>
          ih _ (by omega) halike hnext previous rfl
        rw [findAllFrom_of_some hpos hre', if_pos (Nat.lt_of_le_of_lt hstart hlt)]
        split
        · next hempty =>
          obtain ⟨rfl, rfl⟩ := hempty
          exact .skip hpos hanswer.symm hvalid (hrest (some start))
        · next hnew => exact .found hpos hanswer.symm hnew (fun _ => hvalid) (hrest (some stop))

/-- **All matches of a string.** They are found one after the other, and that comes to an end; there
is at most one more than there are characters, and each has a text. They are in order and do not
overlap, and an empty one does not lie at the end of another. A search from the start of a match
finds it again. And whatever a search finds where it begins is found, or it starts inside a match,
or it is empty and lies at the end of a match that is not. -/
theorem findAll_complete {re : Regex} (h : re.Reachable) (hlimit : re.limit = none)
    {env : Environment} (hsearch : env.searchTime = 0) (text : String) :
    let found := (re.findAll env text).1
    Enumerates text (fun pos => (re.spanAt env text pos).1) 0 none found ∧
    found.length ≤ text.length + 1 ∧
    (∀ m ∈ found, m.slice?.isSome = true ∧ (re.findAt env text m.start).1 = some m) ∧
    (found.Pairwise fun a b =>
      a.start < b.start ∧ a.stop ≤ b.start ∧ ¬ (b.start = b.stop ∧ b.stop = a.stop)) ∧
    ∀ q : Nat, String.Pos.Raw.isValid text ⟨q⟩ = true →
      ∀ m' : Match, (re.findAt env text q).1 = some m' → m'.start = q →
      ∃ m ∈ found, m.start = q ∨ (m.start ≤ q ∧ q < m.stop) ∨
        (q = m.stop ∧ m.start < m.stop ∧ m'.start = m'.stop) := by
  intro found
  have hscans := h.sound.scans hlimit hsearch text
  have hstand : MayStand text 0 := .inl (by simp)
  have henumerates := enumerates_findAllFrom h.sound.alike hscans hstand none
  have hsound := henumerates.sound hscans hstand nofun
  have hpairwise := henumerates.pairwise hscans hstand
  refine ⟨henumerates, ?_, ?_, hpairwise, ?_⟩
  · exact length_le_of_starts (fun m hm => (hsound m hm).2.2.2.1) (hpairwise.imp And.left)
  · intro m hm
    obtain ⟨rfl, -, hends, hstart, hstop, hagain, -⟩ := hsound m hm
    refine ⟨?_, ?_⟩
    · rw [Match.slice?, if_pos ⟨hends, hstart, hstop⟩]
      rfl
    · show (re.spanAt env m.text m.start).1.map _ = _
      rw [hagain]
      rfl
  · intro q hq m' hm' hstart
    obtain ⟨span, hspan, rfl⟩ := Option.map_eq_some_iff.mp hm'
    obtain ⟨start, stop⟩ := span
    obtain rfl : start = q := hstart
    rcases henumerates.complete hscans hstand hq (Nat.zero_le start) hspan with hcovers | ⟨hnone, -⟩
    · exact hcovers
    · cases hnone

/-- A letter any number of times: an empty match before a longer one, and one that is passed over
behind it. -/
theorem findAll_complete_letters :
    let e : Expr := .star (.literal 'a' false) true
    let P : Program := ⟨4, #v[.fail, .consume (.single 0x61) 2, .fork [1, 3], .accept], 2⟩
    let re := ofProgram P .leftmostFirst
    let text := "éaab"
    let found := (re.findAll {} text).1
    ofExpr {} e {} = .ok re ∧ re.Reachable ∧ re.limit = none ∧
    Enumerates text (fun pos => (re.spanAt {} text pos).1) 0 none found ∧
    found.length ≤ text.length + 1 ∧
    (∀ m ∈ found, m.slice?.isSome = true ∧ (re.findAt {} text m.start).1 = some m) ∧
    (found.Pairwise fun a b =>
      a.start < b.start ∧ a.stop ≤ b.start ∧ ¬ (b.start = b.stop ∧ b.stop = a.stop)) ∧
    ∀ q : Nat, String.Pos.Raw.isValid text ⟨q⟩ = true →
      ∀ m' : Match, (re.findAt {} text q).1 = some m' → m'.start = q →
      ∃ m ∈ found, m.start = q ∨ (m.start ≤ q ∧ q < m.stop) ∨
        (q = m.stop ∧ m.start < m.stop ∧ m'.start = m'.stop) := by
  intro e P re text found
  have hcompile : ofExpr {} e {} = .ok re := by cbv
  have hreach : re.Reachable := .ofExpr hcompile
  have hlimit : re.limit = none := rfl
  have hsearch : ({} : Environment).searchTime = 0 := rfl
  exact ⟨hcompile, hreach, hlimit, findAll_complete hreach hlimit hsearch text⟩

end Regex

end Lockstep
