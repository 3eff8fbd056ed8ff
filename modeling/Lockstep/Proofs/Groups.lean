import Lockstep.Proofs.Extent
import Lockstep.Proofs.Strings
import Lockstep.Regex.Captures

/-!
# Where the groups of a match lie

The shape of an expression writes the two slots of a group around its body. So whatever a shape
runs through, in the end the slots of a group are both as before, or both ends of a part of what was
run through, also where groups are repeated or lie in groups with the same index.

- `Shape.Balanced`: what opens a group closes it behind its body.
- `Expr.balanced_shape`: the shapes of expressions are balanced.
- `Text.GroupsWithin`: what a balanced shape does to the slots, `Shape.Balanced.groupsWithin`.
- `Program.Implements.groupsWithin_of_mem_explored`: the groups of the matches that are found.
- `Machine.tryMatch_groups`: the groups of the match that a machine finds.
-/

namespace Lockstep

/-! ## Balanced shapes -/

/-- Slots are only written around a body, in pairs. -/
inductive Shape.Balanced : Shape → Prop where
  | never : Balanced .never
  | skip : Balanced .skip
  | read (cls : SymbolClass) : Balanced (.read cls)
  | check (cond : Conditions) : Balanced (.check cond)
  | seq {c d : Shape} (hc : Balanced c) (hd : Balanced d) : Balanced (.seq c d)
  | choice {c d : Shape} (hc : Balanced c) (hd : Balanced d) : Balanced (.choice c d)
  | star (greedy : Bool) {c : Shape} (hc : Balanced c) : Balanced (.star greedy c)
  | plus (greedy : Bool) {c : Shape} (hc : Balanced c) : Balanced (.plus greedy c)
  | optional (greedy : Bool) {c : Shape} (hc : Balanced c) : Balanced (.optional greedy c)
  | group (index : Nat) {c : Shape} (hc : Balanced c) :
    Balanced (.seq (.seq (.save (2 * index)) c) (.save (2 * index + 1)))

namespace Shape

variable {c first : Shape}

theorem balanced_oneOf (table : List SymbolRange) : (oneOf table).Balanced := by
  unfold oneOf
  split
  · exact .never
  · exact .read _

theorem Balanced.copies (hc : c.Balanced) (count : Nat) (hfirst : first.Balanced) :
    (copies c count first).Balanced := by
  induction count generalizing first with
  | zero => exact hfirst
  | succ count ih => exact ih (.seq hfirst hc)

theorem Balanced.nest (greedy : Bool) (hc : c.Balanced) (count : Nat) {inner : Option Shape}
    (hinner : ∀ d ∈ inner, d.Balanced) : ∀ d ∈ nest greedy c count inner, d.Balanced := by
  induction count generalizing inner with
  | zero => exact hinner
  | succ count ih =>
    refine ih fun d hd => ?_
    obtain rfl := Option.some.inj hd
    cases inner with
    | none => exact .optional greedy hc
    | some inner => exact .optional greedy (.seq hc (hinner inner rfl))

theorem Balanced.times (hc : c.Balanced) (min : Nat) (max : Option Nat) (greedy : Bool) :
    (times c min max greedy).Balanced := by
  cases max with
  | none =>
    cases min with
    | zero => exact .star greedy hc
    | succ min => exact .seq (hc.copies min .skip) (.plus greedy hc)
  | some max =>
    simp only [Shape.times]
    split
    · exact .never
    · split
      · next rest hrest =>
        exact .seq (hc.copies min .skip) (hc.nest greedy (max - min) (by simp) rest hrest)
      · exact hc.copies min .skip

end Shape

namespace Expr

theorem balanced_textShape {c : Shape} (hc : c.Balanced) (chars : List Char) :
    (textShape c chars).Balanced := by
  induction chars generalizing c with
  | nil => exact hc
  | cons char rest ih => exact ih (.seq hc (.read _))

mutual

/-- **The shape of an expression is balanced.** -/
theorem balanced_shape : ∀ e : Expr, e.shape.Balanced
  | empty => .skip
  | never => .never
  | literal _ _ => .read _
  | .text [] => .skip
  | .text (_ :: rest) => balanced_textShape (.read _) rest
  | oneOf _ => Shape.balanced_oneOf _
  | noneOf _ => Shape.balanced_oneOf _
  | any => .read _
  | anyButNewline => .read _
  | assert cond => .check cond
  | concat [] => .skip
  | concat (e :: rest) => balanced_concatShape (balanced_shape e) rest
  | alternate [] => .never
  | alternate (e :: rest) => balanced_alternateShape (balanced_shape e) rest
  | star body greedy => .star greedy (balanced_shape body)
  | plus body greedy => .plus greedy (balanced_shape body)
  | optional body greedy => .optional greedy (balanced_shape body)
  | times body min max greedy => (balanced_shape body).times min max greedy
  | capture index body => .group index.toNat (balanced_shape body)

theorem balanced_concatShape {c : Shape} (hc : c.Balanced) :
    ∀ es : List Expr, (concatShape c es).Balanced
  | [] => hc
  | e :: rest => balanced_concatShape (.seq hc (balanced_shape e)) rest

theorem balanced_alternateShape {c : Shape} (hc : c.Balanced) :
    ∀ es : List Expr, (alternateShape c es).Balanced
  | [] => hc
  | e :: rest => balanced_alternateShape (.choice hc (balanced_shape e)) rest

end

end Expr

/-! ## What a balanced shape does to the slots -/

theorem Slots.getElem?_unset_ne (width slot pos : Nat) :
    (Slots.unset width)[slot]? ≠ some (some pos) := by
  rw [Slots.unset, Array.getElem?_replicate]
  split <;> simp

/-- Reading leads from one offset to the other, and the two slots of each group are as they were or
have become the ends of a part in between. -/
structure Text.GroupsWithin (text : Text) (e e' : text.Offset × Slots) : Prop where
  readsTo : text.ReadsTo e.1 e'.1
  group : ∀ k, (e'.2[2 * k]? = e.2[2 * k]? ∧ e'.2[2 * k + 1]? = e.2[2 * k + 1]?) ∨
    ∃ a b : text.Offset, text.ReadsTo e.1 a ∧ text.ReadsTo a b ∧ text.ReadsTo b e'.1 ∧
      e'.2[2 * k]? = e.2[2 * k]?.map (fun _ => some (a : Nat)) ∧
      e'.2[2 * k + 1]? = e.2[2 * k + 1]?.map (fun _ => some (b : Nat))

namespace Text.GroupsWithin

variable {text : Text} {e e' e'' : text.Offset × Slots}

theorem of_readsTo {i j : text.Offset} {slots slots' : Slots} (h : text.ReadsTo i j)
    (hslots : slots = slots') : text.GroupsWithin (i, slots) (j, slots') :=
  ⟨h, fun _ => .inl ⟨congrArg (·[_]?) hslots.symm, congrArg (·[_]?) hslots.symm⟩⟩

theorem refl (e : text.Offset × Slots) : text.GroupsWithin e e := of_readsTo (.refl e.1) rfl

/-- What is written later stands. -/
theorem trans (h : text.GroupsWithin e e') (h' : text.GroupsWithin e' e'') :
    text.GroupsWithin e e'' := by
  refine ⟨h.readsTo.trans h'.readsTo, fun k => ?_⟩
  rcases h'.group k with ⟨hleft', hright'⟩ | ⟨a', b', ha', hab', hb', hleft', hright'⟩
  · rcases h.group k with ⟨hleft, hright⟩ | ⟨a, b, ha, hab, hb, hleft, hright⟩
    · exact .inl ⟨hleft'.trans hleft, hright'.trans hright⟩
    · exact .inr ⟨a, b, ha, hab, hb.trans h'.readsTo, hleft'.trans hleft, hright'.trans hright⟩
  · refine .inr ⟨a', b', h.readsTo.trans ha', hab', hb', ?_, ?_⟩
    · rw [hleft']
      rcases h.group k with ⟨hleft, -⟩ | ⟨a, b, -, -, -, hleft, -⟩
      · rw [hleft]
      · rw [hleft, Option.map_map]
        rfl
    · rw [hright']
      rcases h.group k with ⟨-, hright⟩ | ⟨a, b, -, -, -, -, hright⟩
      · rw [hright]
      · rw [hright, Option.map_map]
        rfl

theorem of_reflTransGen {R : text.Offset × Slots → text.Offset × Slots → Prop}
    (hstep : ∀ e e', R e e' → text.GroupsWithin e e') (h : Relation.ReflTransGen R e e') :
    text.GroupsWithin e e' := by
  induction h with
  | refl => exact refl e
  | tail _ hlast ih => exact ih.trans (hstep _ _ hlast)

/-- **A group around a body.** If the body has a group of the same index in it, the start of that
one stands, which lies behind the start of the body. -/
theorem around (index : Nat) {i j : text.Offset} {slots slots' : Slots}
    (h : text.GroupsWithin (i, slots.setIfInBounds (2 * index) (some (i : Nat))) (j, slots')) :
    text.GroupsWithin (i, slots) (j, slots'.setIfInBounds (2 * index + 1) (some (j : Nat))) := by
  have hto : text.ReadsTo i j := h.readsTo
  refine ⟨hto, fun k => ?_⟩
  dsimp only
  by_cases hk : k = index
  · subst hk
    rw [Array.getElem?_setIfInBounds_ne (by omega), Slots.getElem?_setIfInBounds]
    have hold : (slots.setIfInBounds (2 * k) (some (i : Nat)))[2 * k + 1]? = slots[2 * k + 1]? :=
      Array.getElem?_setIfInBounds_ne (by omega)
    rcases h.group k with ⟨hleft, hright⟩ | ⟨a, b, ha, hab, hb, hleft, hright⟩
    · refine .inr ⟨i, j, .refl i, hto, .refl j, ?_, ?_⟩
      · exact hleft.trans (Slots.getElem?_setIfInBounds ..)
      · rw [show slots'[2 * k + 1]? = _ from hright, hold]
    · refine .inr ⟨a, j, ha, hab.trans hb, .refl j, ?_, ?_⟩
      · rw [show slots'[2 * k]? = _ from hleft, Slots.getElem?_setIfInBounds,
          Option.map_map]
        rfl
      · rw [show slots'[2 * k + 1]? = _ from hright, hold, Option.map_map]
        rfl
  · rw [Array.getElem?_setIfInBounds_ne (by omega), Array.getElem?_setIfInBounds_ne (by omega)]
    have hgroup := h.group k
    dsimp only at hgroup
    rwa [Array.getElem?_setIfInBounds_ne (by omega), Array.getElem?_setIfInBounds_ne (by omega)]
      at hgroup

end Text.GroupsWithin

/-- **A balanced shape keeps the groups within what it runs through.** -/
theorem Shape.Balanced.groupsWithin {text : Text} {c : Shape} (hc : c.Balanced)
    {e e' : text.Offset × Slots} (h : c.Runs text e e') : text.GroupsWithin e e' := by
  induction hc generalizing e e' with
  | never => exact h.elim
  | skip =>
    rw [show e = e' from h]
    exact .refl e'
  | read cls =>
    obtain ⟨⟨r, hread, -⟩, hslots⟩ := h
    exact .of_readsTo (.of_read hread) hslots
  | check cond =>
    rw [h.1]
    exact .refl e'
  | seq _ _ ihc ihd =>
    obtain ⟨m, hm, hm'⟩ := h
    exact (ihc hm).trans (ihd hm')
  | choice _ _ ihc ihd => exact h.elim ihc ihd
  | star greedy _ ih => exact .of_reflTransGen (fun _ _ => ih) h
  | plus greedy _ ih =>
    obtain ⟨m, hm, hm'⟩ := h
    exact (ih hm).trans (.of_reflTransGen (fun _ _ => ih) hm')
  | optional greedy _ ih =>
    rcases h with rfl | h
    · exact .refl e
    · exact ih h
  | group index _ ih =>
    obtain ⟨m', ⟨m, hopen, hbody⟩, hclose⟩ := h
    rw [← show (m'.1, m'.2.setIfInBounds (2 * index + 1) (some (m'.1 : Nat))) = e' from hclose]
    rw [← show (e.1, e.2.setIfInBounds (2 * index) (some (e.1 : Nat))) = m from hopen] at hbody
    exact (ih hbody).around index

/-! ## The groups of a match -/

namespace Text.GroupsWithin

variable {text : Text} {i j : text.Offset} {width : Nat} {slots : Slots}

/-- Groups that have been unset are within the match, or still unset. -/
theorem unset_or_within (h : text.GroupsWithin (i, Slots.unset width) (j, slots)) {k : Nat}
    (hk : 2 * k + 1 < width) : (slots[2 * k]? = some none ∧ slots[2 * k + 1]? = some none) ∨
      ∃ a b : text.Offset, text.ReadsTo i a ∧ text.ReadsTo a b ∧ text.ReadsTo b j ∧
        slots[2 * k]? = some (some (a : Nat)) ∧ slots[2 * k + 1]? = some (some (b : Nat)) := by
  have hunset : ∀ slot < width, (Slots.unset width)[slot]? = some none := by
    intro slot hslot
    rw [Slots.unset, Array.getElem?_replicate, if_pos hslot]
  have hgroup := h.group k
  dsimp only at hgroup
  rwa [hunset (2 * k) (by omega), hunset (2 * k + 1) hk] at hgroup

/-- What is in a slot that had been unset was written to it. -/
theorem eq_of_map {old : Option (Option Nat)} {pos a : Nat}
    (h : some (some pos) = old.map fun _ => some a) : pos = a := by
  cases old with
  | none => cases h
  | some => exact Option.some.inj (Option.some.inj h)

/-- What is in the slots are offsets that reading leads to. -/
theorem readsTo_of_set (h : text.GroupsWithin (i, Slots.unset width) (j, slots)) {slot pos : Nat}
    (hpos : slots[slot]? = some (some pos)) : ∃ a : text.Offset, text.ReadsTo i a ∧ pos = a := by
  have hgroup := h.group (slot / 2)
  dsimp only at hgroup
  rcases Nat.mod_two_eq_zero_or_one slot with hslot | hslot
  · rw [show 2 * (slot / 2) = slot by omega, hpos] at hgroup
    rcases hgroup with ⟨hleft, -⟩ | ⟨a, b, ha, -, -, hleft, -⟩
    · exact absurd hleft.symm (Slots.getElem?_unset_ne _ _ _)
    · exact ⟨a, ha, eq_of_map hleft⟩
  · rw [show 2 * (slot / 2) + 1 = slot by omega, hpos] at hgroup
    rcases hgroup with ⟨-, hright⟩ | ⟨a, b, ha, hab, -, -, hright⟩
    · exact absurd hright.symm (Slots.getElem?_unset_ne _ _ _)
    · exact ⟨b, ha.trans hab, eq_of_map hright⟩

/-- The two ends of a group are in order. -/
theorem le_of_set (h : text.GroupsWithin (i, Slots.unset width) (j, slots)) {k a b : Nat}
    (ha : slots[2 * k]? = some (some a)) (hb : slots[2 * k + 1]? = some (some b)) : a ≤ b := by
  have hgroup := h.group k
  dsimp only at hgroup
  rw [ha, hb] at hgroup
  rcases hgroup with ⟨hleft, -⟩ | ⟨a', b', -, hab, -, hleft, hright⟩
  · exact absurd hleft.symm (Slots.getElem?_unset_ne _ _ _)
  · rw [eq_of_map hleft, eq_of_map hright]
    exact hab.le

end Text.GroupsWithin

/-- **The groups of a match lie within it**, and it is a group itself: its start is written at
first, and its end at last. -/
theorem Program.Implements.groupsWithin_of_mem_explored {P : Program} {e : Expr}
    (h : P.Implements e) {task : Task} {i j : task.text.Offset} {slots : Slots}
    (hmem : (j, slots) ∈ P.explored task i) :
    task.text.GroupsWithin (i, Slots.unset task.width) (j, slots) := by
  obtain ⟨e', harrived, hends, heq⟩ := mem_matchesOf.mp hmem
  cases heq
  rw [ends, Bool.and_eq_true, decide_eq_true_eq] at hends
  obtain ⟨n, hn⟩ := exists_endsIn_of_mem_arrivals harrived hends.1
  have hruns := h.runs_of_endsIn hn
  exact (e.balanced_shape.groupsWithin hruns).around 0

namespace Captures

/-- The text of a group can be had if all offsets in the slots are between characters and those of
the group are in order. -/
theorem slice?_isSome {c : Captures} {k : Nat} {mt : Match} (hget : c.get? k = some mt)
    (hvalid : ∀ slot pos : Nat, c.slots[slot]? = some (some pos) →
      String.Pos.Raw.isValid c.text ⟨pos⟩ = true)
    (horder : ∀ a b : Nat, c.slots[2 * k]? = some (some a) → c.slots[2 * k + 1]? = some (some b) →
      a ≤ b) : mt.slice?.isSome = true := by
  simp only [get?, Option.bind_eq_bind, Option.pure_def, Option.bind_eq_some_iff,
    Option.join_eq_some_iff, Option.some.injEq] at hget
  obtain ⟨a, ha, b, hb, rfl⟩ := hget
  unfold Match.slice?
  rw [if_pos ⟨horder a b ha hb, hvalid _ a ha, hvalid _ b hb⟩]
  rfl

end Captures

namespace Machine

variable {P : Program} {e : Expr}

/-- **The groups of the match that a machine finds** lie within it. In a string all of them are
between characters, so that their texts can be had. -/
theorem tryMatch_groups {limit : Nat} (hcompile : e.compile limit = .ok P) {m : Machine P}
    (h : m.Reachable) {env : Environment} (hlimit : m.timeLimit env = none) (hwidth : 2 ≤ m.width)
    (input : Input) (anchor : Anchor) (pos : input.text.Offset)
    (hfound : (m.tryMatch env input pos anchor).1 = .ok true) :
    let slots := (m.tryMatch env input pos anchor).2.submatches
    (∃ i j : Nat, slots.start? = some i ∧ slots.stop? = some j ∧
      pos ≤ i ∧ i ≤ j ∧ j ≤ input.text.endPos ∧
      ∀ k, 2 * k + 1 < m.width →
        (slots[2 * k]? = some none ∧ slots[2 * k + 1]? = some none) ∨
          ∃ a b, slots[2 * k]? = some (some a) ∧ slots[2 * k + 1]? = some (some b) ∧
            i ≤ a ∧ a ≤ b ∧ b ≤ j) ∧
      ∀ s : String, input.text = Text.ofString s → String.Pos.Raw.isValid s ⟨pos⟩ = true →
        (∀ slot offset : Nat, slots[slot]? = some (some offset) →
          String.Pos.Raw.isValid s ⟨offset⟩ = true) ∧
        ∀ k mt, Captures.get? ⟨s, slots⟩ k = some mt → mt.slice?.isSome = true := by
  intro slots
  obtain ⟨Q, himplements, hspare, hanswer, hslots⟩ :=
    exists_reference_of_compile hcompile h hlimit hwidth input anchor pos
  have hsome := Except.ok.inj (hanswer.symm.trans hfound)
  obtain ⟨wanted, hwanted⟩ := Option.isSome_iff_exists.mp hsome
  have hslots : slots = wanted :=
    hslots.trans (congrArg (Option.getD · (Slots.unset m.width)) hwanted)
  -- the match is one of those that start at some offset
  obtain ⟨i, hi, j, hmem, hstart, hstop, -, -⟩ :=
    Program.exists_explored_of_reference hspare hwidth hwanted
  rw [← hslots] at hmem hstart hstop
  have hgroups := himplements.groupsWithin_of_mem_explored hmem
  have hto : input.text.ReadsTo pos i := (Task.mem_starts.mp hi).1
  refine ⟨⟨i, j, hstart, hstop, hto.le, hgroups.readsTo.le, Nat.le_of_lt_succ j.isLt, ?_⟩, ?_⟩
  · intro k hk
    rcases hgroups.unset_or_within hk with hunset | ⟨a, b, ha, hab, hb, hleft, hright⟩
    · exact .inl hunset
    · exact .inr ⟨a, b, hleft, hright, ha.le, hab.le, hb.le⟩
  · intro s hs hvalid
    have hparts : ∀ slot offset : Nat, slots[slot]? = some (some offset) →
        String.Pos.Raw.isValid s ⟨offset⟩ = true := by
      intro slot offset hoffset
      obtain ⟨a, ha, rfl⟩ := hgroups.readsTo_of_set hoffset
      have hwrites := Text.writes_ofString s
      rw [← hs] at hwrites
      exact Text.isValid_iff_parts.mpr
        (hwrites.parts_of_readsTo (Text.isValid_iff_parts.mp hvalid) (hto.trans ha))
    exact ⟨hparts, fun k mt hget =>
      Captures.slice?_isSome hget hparts fun a b => hgroups.le_of_set⟩

/-- A repetition of a group that matches empty and has a group of the same index in it. -/
theorem tryMatch_groups_nested :
    let e : Expr := .star (.group 1 (.optional (.group 1 (.literal 'a' false)) true)) true
    let P : Program :=
      ⟨9, #v[.fail, .save 2 5, .save 2 3, .consume (.single 0x61) 4, .save 3 6, .fork [2, 6],
        .save 3 7, .fork [1, 8], .accept], 7⟩
    let m := new P .leftmostLongest
    let s := "aa"
    let input : Input := { text := Text.ofString s }
    let slots := (m.tryMatch {} input 0 .unanchored).2.submatches
    e.compile 100 = .ok P ∧ m.Reachable ∧ m.timeLimit {} = none ∧ 2 ≤ m.width ∧
      (m.tryMatch {} input 0 .unanchored).1 = .ok true ∧
      (∃ i j : Nat, slots.start? = some i ∧ slots.stop? = some j ∧
        0 ≤ i ∧ i ≤ j ∧ j ≤ input.text.endPos ∧
        ∀ k, 2 * k + 1 < m.width →
          (slots[2 * k]? = some none ∧ slots[2 * k + 1]? = some none) ∨
            ∃ a b, slots[2 * k]? = some (some a) ∧ slots[2 * k + 1]? = some (some b) ∧
              i ≤ a ∧ a ≤ b ∧ b ≤ j) ∧
      (∀ slot offset : Nat, slots[slot]? = some (some offset) →
        String.Pos.Raw.isValid s ⟨offset⟩ = true) ∧
      ∀ k mt, Captures.get? ⟨s, slots⟩ k = some mt → mt.slice?.isSome = true := by
  intro e P m s input slots
  have hcompile : e.compile 100 = .ok P := by cbv
  have hreach : m.Reachable := .new .leftmostLongest
  have hlimit : m.timeLimit {} = none := rfl
  have hwidth : 2 ≤ m.width := by decide
  have hfound : (m.tryMatch {} input 0 .unanchored).1 = .ok true := by
    obtain ⟨Q, himplements, -, hanswer, -⟩ :=
      exists_reference_of_compile hcompile hreach hlimit hwidth input .unanchored 0
    let task := m.task input.text .unanchored
    have hanchor : task.anchor = .unanchored := rfl
    have hadmits : task.Admits 0 0 0 := ⟨.refl 0, fun _ => ⟨rfl, rfl⟩, by simp [hanchor]⟩
    have hsome : (Q.reference task 0).isSome = true :=
      himplements.reference_isSome_iff.mpr ⟨0, 0, hadmits, .starNil 0⟩
    exact hanswer.trans (congrArg Except.ok hsome)
  have hvalid : String.Pos.Raw.isValid s 0 = true := by cbv
  obtain ⟨hwithin, hstring⟩ :=
    tryMatch_groups hcompile hreach hlimit hwidth input .unanchored 0 hfound
  exact ⟨hcompile, hreach, hlimit, hwidth, hfound, hwithin, hstring s rfl hvalid⟩

end Machine

end Lockstep
