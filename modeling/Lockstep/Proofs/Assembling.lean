import Lockstep.Proofs.Layouts
import Lockstep.Proofs.Linking

/-!
# Expressions become programs of their shape

What an action on a program under construction adds holds in every finished program that keeps it.
So a fragment is described by what it is in such a program, and two actions one after the other
add what each of them adds.

- `Builder.Grows`: a builder has at least the instructions and the links of another one.
- `Assembly.Gives`: an action only adds, and what it gives is as described in every program that
  keeps what was added.
- `Program.Represents`: a fragment has a shape, and its instructions lie in some range.
- `Expr.gives_assemble`: the fragment of an expression has the shape of the expression.
- `Program.Implements`, `Program.LaysOut`: a program has the shape of an expression between its
  start and an accepting address, and its instructions lie before that one.
-/

namespace Lockstep

/-! ## Builders that grow -/

/-- An instruction that writes a slot writes one of a group: it leaves alone the slots of the whole
match, and there are not too many before it to be counted. -/
def Instr.SavesGroup {ε : Type} (i : Instr ε) : Prop :=
  ∀ slot next, i = .save slot next → 2 ≤ slot ∧ slot + 2 < UInt64.size

theorem Instr.savesGroup_fork {ε : Type} {arms : List ε} : (Instr.fork arms).SavesGroup :=
  fun _ _ h => nomatch h

namespace Builder

/-- A builder has the instructions and the links of an earlier one; what is new writes only the
slots of groups. -/
structure Grows (b b' : Builder) : Prop where
  code : ∀ (pc : Nat) (i : Instr Edge), b.code[pc]? = some i → b'.code[pc]? = some i
  links : ∀ link ∈ b.links, link ∈ b'.links
  groups : (∀ i ∈ b.code, i.SavesGroup) → ∀ i ∈ b'.code, i.SavesGroup

variable {b b' b'' : Builder}

theorem Grows.refl (b : Builder) : b.Grows b := ⟨fun _ _ h => h, fun _ h => h, fun h => h⟩

theorem Grows.trans (h : b.Grows b') (h' : b'.Grows b'') : b.Grows b'' :=
  ⟨fun pc i hi => h'.code pc i (h.code pc i hi), fun link hl => h'.links link (h.links link hl),
    fun hb => h'.groups (h.groups hb)⟩

theorem getElem?_code_push {pc : Nat} {j : Instr Edge} (h : b.code[pc]? = some j) (i : Instr Edge) :
    (b.push i).code[pc]? = some j := by
  have hlt := (Array.getElem?_eq_some_iff.mp h).1
  show (b.code.push i)[pc]? = some j
  rw [Array.getElem?_push_lt hlt]
  rw [Array.getElem?_eq_getElem hlt] at h
  exact h

theorem grows_push {i : Instr Edge} (hi : i.SavesGroup) (b : Builder) : b.Grows (b.push i) := by
  refine ⟨fun pc j hj => getElem?_code_push hj i, fun _ h => h, fun hb j hj => ?_⟩
  rcases Array.mem_push.mp hj with hj | rfl
  · exact hb j hj
  · exact hi

theorem grows_link (b : Builder) (holes : List Hole) (target : Nat) :
    b.Grows (b.link holes target) :=
  ⟨fun _ _ h => h, fun _ h => Array.mem_append.mpr (.inl h), fun h => h⟩

end Builder

namespace Program

variable {P : Program} {b b' : Builder}

/-- A program that keeps what was added keeps what was there before. -/
theorem Realises.mono (h : P.Realises b') (hb : b.Grows b') : P.Realises b :=
  ⟨fun pc i hi => h.instr pc i (hb.code pc i hi), fun link hl => h.links link (hb.links link hl)⟩

/-- The program fails at the address 0. -/
def Rooted (P : Program) : Prop := ∃ h : 0 < P.size, P.instr ⟨0, h⟩ = .fail

end Program

/-! ## What actions add -/

namespace Assembly

variable {α β : Type}

/-- Two actions one after the other have a result only if each of them has one. -/
theorem exists_of_bind {act : Assembly α} {next : α → Assembly β} {b b'' : Builder} {c : β}
    (h : (act >>= next) b = .ok (c, b'')) :
    ∃ a b', act b = .ok (a, b') ∧ next a b' = .ok (c, b'') := by
  obtain ⟨⟨a, b'⟩, hfirst, hsecond⟩ := Builder.exists_ok_of_bind h
  exact ⟨a, b', hfirst, hsecond⟩

/-- An action only adds, and what it gives is as described in every program that keeps what was
added. The description is told between which addresses the instructions are that were added. -/
def Gives (act : Assembly α) (Q : Program → (lo hi : Nat) → α → Prop) : Prop :=
  ∀ b a b', act b = .ok (a, b') →
    b.Grows b' ∧ b.code.size ≤ b'.code.size ∧
      ∀ P : Program, P.Realises b' → P.Rooted → Q P b.code.size b'.code.size a

theorem Gives.mono {act : Assembly α} {Q R : Program → Nat → Nat → α → Prop} (h : Gives act Q)
    (hQR : ∀ P lo hi a, lo ≤ hi → Q P lo hi a → R P lo hi a) : Gives act R := by
  intro b a b' hact
  obtain ⟨hgrows, hle, hQ⟩ := h b a b' hact
  exact ⟨hgrows, hle, fun P hP hroot => hQR P _ _ a hle (hQ P hP hroot)⟩

theorem gives_pure {a : α} {Q : Program → Nat → Nat → α → Prop}
    (h : ∀ (P : Program) (n : Nat), P.Rooted → Q P n n a) : Gives (pure a) Q := by
  intro b a' b' hact
  cases hact
  exact ⟨.refl b, Nat.le_refl _, fun P _ hroot => h P _ hroot⟩

theorem gives_throw {e : Error} {Q : Program → Nat → Nat → α → Prop} :
    Gives (throw e : Assembly α) Q := by
  intro b a b' hact
  cases hact

/-- Two actions one after the other: what the second one adds stands behind what the first one has
added. -/
theorem Gives.bind {act : Assembly α} {next : α → Assembly β} {Q : Program → Nat → Nat → α → Prop}
    {R : Program → Nat → Nat → β → Prop} (h : Gives act Q)
    (hnext : ∀ a, Gives (next a) fun P mid hi c => ∀ lo ≤ mid, Q P lo mid a → R P lo hi c) :
    Gives (act >>= next) R := by
  intro b c b'' hact
  obtain ⟨a, b', hfirst, hsecond⟩ := exists_of_bind hact
  obtain ⟨hgrows, hle, hQ⟩ := h b a b' hfirst
  obtain ⟨hgrows', hle', hR⟩ := hnext a b' c b'' hsecond
  exact ⟨hgrows.trans hgrows', Nat.le_trans hle hle', fun P hP hroot =>
    hR P hP hroot _ hle (hQ P (hP.mono hgrows') hroot)⟩

theorem gives_emit {limit : Nat} {i : Instr Edge} (hi : i.SavesGroup) :
    Gives (emit limit i) fun P lo hi pc => (lo ≤ pc ∧ pc < hi) ∧
      ∃ h : pc < P.size, (P.openInstr ⟨pc, h⟩).Fills i := by
  intro b pc b' hact
  unfold emit at hact
  dsimp only at hact
  split at hact
  · cases hact
  · cases hact
    have hsize : (b.push i).code.size = b.code.size + 1 := Array.size_push _
    refine ⟨Builder.grows_push hi b, by omega, fun P hP _ => ⟨by omega, hP.instr _ i ?_⟩⟩
    exact Array.getElem?_push_size

theorem gives_link {holes : List Hole} {target : Nat} :
    Gives (link holes target) fun P _ _ _ => ∀ hole ∈ holes, P.Leads hole target := by
  intro b u b' hact
  cases hact
  refine ⟨Builder.grows_link b holes target, Nat.le_refl _,
    fun P hP _ hole hhole => hP.links (hole, target) ?_⟩
  refine Array.mem_append.mpr (.inr ?_)
  simpa using hhole

end Assembly

/-! ## Fragments of a shape -/

namespace Program

variable {P : Program} {c d : Shape} {f g : Fragment} {lo hi lo' hi' : Nat}

/-- A fragment has a shape, in some range of addresses: wherever its exits lead, it has the shape
between its entry and there. -/
def Represents (P : Program) (c : Shape) (lo hi : Nat) : Fragment → Prop
  | .never => c.isNever = true
  | .live entry exits => c.isNever = false ∧
    ∀ t : Fin P.size, (∀ hole ∈ exits, P.Leads hole t) →
      ∃ s : Fin P.size, s.val = entry ∧ P.Lays c lo hi s t

theorem Represents.mono (h : P.Represents c lo hi f) (hlo : lo' ≤ lo) (hhi : hi ≤ hi') :
    P.Represents c lo' hi' f := by
  cases f with
  | never => exact h
  | live entry exits =>
    refine ⟨h.1, fun t ht => ?_⟩
    obtain ⟨s, hs, hlays⟩ := h.2 t ht
    exact ⟨s, hs, hlays.mono hlo hhi⟩

theorem Represents.lays (h : P.Represents c lo hi f) (hroot : P.Rooted) {t : Fin P.size}
    (ht : ∀ hole ∈ f.exits, P.Leads hole t) :
    ∃ s : Fin P.size, s.val = f.entry ∧ P.Lays c lo hi s t := by
  cases f with
  | never =>
    obtain ⟨hpos, hfail⟩ := hroot
    exact ⟨⟨0, hpos⟩, rfl, .never h hfail rfl⟩
  | live entry exits => exact h.2 t ht

/-- A fragment is a fork in front of a body of a shape that leads back to it. -/
def Loops (P : Program) (greedy : Bool) (c : Shape) (body lo hi : Nat) : Fragment → Prop
  | .never => False
  | .live entry exits => ∀ t : Fin P.size, (∀ hole ∈ exits, P.Leads hole t) →
    ∃ (s x : Fin P.size) (top : Nat), s.val = entry ∧ x.val = body ∧
      P.instr s = .fork (Shape.arms greedy x t) ∧ P.Lays c lo top x s ∧ lo ≤ top ∧
        top ≤ s ∧ s < hi

theorem Loops.represents {greedy : Bool} {body : Nat} (h : P.Loops greedy c body lo hi f) :
    P.Represents (.star greedy c) lo hi f := by
  cases f with
  | never => exact h.elim
  | live entry exits =>
    refine ⟨rfl, fun t ht => ?_⟩
    obtain ⟨s, x, top, hs, -, hfork, hlays, hrange, hin⟩ := h t ht
    exact ⟨s, hs, .star hlays hrange hin hfork⟩

/-- A fork with no open arm. -/
theorem instr_of_fills {s x y : Fin P.size}
    (h : (P.openInstr s).Fills (.fork [some x.val, some y.val])) :
    P.instr s = .fork [x, y] := by
  obtain ⟨arms, harms, hlen⟩ := h.exists_fork
  obtain ⟨x', y', rfl⟩ := List.length_eq_two.mp hlen
  have hx := h.keeps 0 x rfl
  have hy := h.keeps 1 y rfl
  rw [openInstr, harms] at hx hy
  have hx' : x' = x := Fin.ext (by simpa [Instr.map, Instr.successors] using hx)
  have hy' : y' = y := Fin.ext (by simpa [Instr.map, Instr.successors] using hy)
  rw [harms, hx', hy']

/-- A fork with one open arm. -/
theorem exists_fork_of_fills {s : Fin P.size} (greedy : Bool) {entry : Nat}
    (h : (P.openInstr s).Fills (.fork (Shape.arms greedy (some entry) none))) {t : Fin P.size}
    (ht : P.Leads ⟨s, if greedy then 1 else 0⟩ t) :
    ∃ x : Fin P.size, x.val = entry ∧ P.instr s = .fork (Shape.arms greedy x t) := by
  obtain ⟨arms, harms, hlen⟩ := h.exists_fork
  obtain ⟨_, ht⟩ := ht
  have hkeeps := h.keeps (if greedy then 0 else 1) entry
  rw [openInstr, harms] at ht hkeeps
  cases greedy with
  | true =>
    obtain ⟨x, y, rfl⟩ := List.length_eq_two.mp hlen
    have hx : x.val = entry := by
      simpa [Instr.map, Instr.successors, Shape.arms] using hkeeps rfl
    have hy : y = t := Fin.ext (by simpa [Instr.map, Instr.successors] using ht)
    exact ⟨x, hx, by rw [harms, hy]; rfl⟩
  | false =>
    obtain ⟨x, y, rfl⟩ := List.length_eq_two.mp hlen
    have hx : x = t := Fin.ext (by simpa [Instr.map, Instr.successors] using ht)
    have hy : y.val = entry := by
      simpa [Instr.map, Instr.successors, Shape.arms] using hkeeps rfl
    exact ⟨y, hy, by rw [harms, hx]; rfl⟩

end Program

namespace Assembly

variable {limit : Nat} {c d : Shape} {f g : Fragment}

/-- The fragment of a single instruction. -/
theorem gives_single {i : Instr Edge} (hi : i.next?.isSome = true) (hgroup : i.SavesGroup)
    (hlive : c.isNever = false)
    (hc : ∀ (P : Program) (lo hi : Nat) (s t : Fin P.size), lo ≤ s ∧ s < hi →
      P.instr s = (i.map fun _ => t) → P.Lays c lo hi s t) :
    Gives (single limit i) fun P lo hi f => P.Represents c lo hi f := by
  refine (gives_emit hgroup).bind fun pc => gives_pure fun P n _ lo _ => ?_
  rintro ⟨hin, hpc, hfills⟩
  refine ⟨hlive, fun t ht => ⟨⟨pc, hpc⟩, rfl, hc P lo n _ t hin ?_⟩⟩
  exact Program.instr_of_leads hfills hi (ht _ List.mem_cons_self)

theorem gives_skip :
    Gives (single limit (.jump none)) fun P lo hi f => P.Represents .skip lo hi f :=
  gives_single rfl nofun rfl fun _ _ _ _ _ hin h => .skip hin h

theorem gives_consume {cls : SymbolClass} :
    Gives (consume limit cls) fun P lo hi f => P.Represents (.read cls) lo hi f :=
  gives_single rfl nofun rfl fun _ _ _ _ _ hin h => .read hin h

theorem gives_save (slot : Nat) (h : 2 ≤ slot ∧ slot + 2 < UInt64.size) :
    Gives (single limit (.save slot none)) fun P lo hi f => P.Represents (.save slot) lo hi f := by
  refine gives_single rfl ?_ rfl fun _ _ _ _ _ hin hs => .save hin hs
  intro slot' next hsave
  cases hsave
  exact h

theorem gives_oneOf {table : List SymbolRange} :
    Gives (oneOf limit table) fun P lo hi f => P.Represents (.oneOf table) lo hi f := by
  unfold oneOf Shape.oneOf
  cases SymbolClass.ofNormal? table with
  | none => exact gives_pure fun _ _ _ => rfl
  | some cls => exact gives_consume

/-- One fragment and then another, wherever the two were added. -/
theorem gives_join : Gives (join f g) fun P _ _ h => ∀ {lo hi lo₁ hi₁ lo₂ hi₂ : Nat},
    P.Represents c lo₁ hi₁ f → P.Represents d lo₂ hi₂ g → hi₁ ≤ lo₂ ∨ hi₂ ≤ lo₁ →
      lo ≤ lo₁ ∧ lo ≤ lo₂ → hi₁ ≤ hi ∧ hi₂ ≤ hi → P.Represents (.seq c d) lo hi h := by
  have hnever : (f = .never ∨ g = .never) →
      Gives (do link f.exits 0; link g.exits 0; return Fragment.never) fun P _ _ h =>
        ∀ {lo hi lo₁ hi₁ lo₂ hi₂ : Nat},
          P.Represents c lo₁ hi₁ f → P.Represents d lo₂ hi₂ g → hi₁ ≤ lo₂ ∨ hi₂ ≤ lo₁ →
            lo ≤ lo₁ ∧ lo ≤ lo₂ → hi₁ ≤ hi ∧ hi₂ ≤ hi → P.Represents (.seq c d) lo hi h := by
    intro hfg
    refine gives_link.bind fun _ => gives_link.bind fun _ =>
      gives_pure fun P _ _ _ _ _ _ _ _ lo hi lo₁ hi₁ lo₂ hi₂ hc hd _ _ _ => ?_
    show (c.isNever || d.isNever) = true
    rcases hfg with rfl | rfl
    · rw [show c.isNever = true from hc, Bool.true_or]
    · rw [show d.isNever = true from hd, Bool.or_true]
  cases f with
  | never => exact hnever (.inl rfl)
  | live entry exits =>
    cases g with
    | never => exact hnever (.inr rfl)
    | live entry' exits' =>
      refine gives_link.bind fun _ =>
        gives_pure fun P _ _ _ _ hleads lo hi lo₁ hi₁ lo₂ hi₂ hc hd hapart hlo hhi => ?_
      have hlive : (Shape.seq c d).isNever = false := by
        rw [Shape.isNever, hc.1, hd.1, Bool.or_false]
      refine ⟨hlive, fun t ht => ?_⟩
      obtain ⟨m, rfl, hm⟩ := hd.2 t ht
      obtain ⟨s, hs, hlays⟩ := hc.2 m hleads
      exact ⟨s, hs, .seq hlive hlays hm hapart hlo hhi⟩

/-- One fragment or another, added before the second one. -/
theorem gives_choose : Gives (choose limit f g) fun P top hi h => ∀ {lo mid : Nat}, lo ≤ mid →
    mid ≤ top → P.Represents c lo mid f → P.Represents d mid top g →
      P.Represents (.choice c d) lo hi h := by
  cases f with
  | never =>
    refine gives_pure fun P n _ lo mid hlo hmid hc hd => ?_
    have hc : c.isNever = true := hc
    cases g with
    | never =>
      show (c.isNever && d.isNever) = true
      rw [hc, show d.isNever = true from hd, Bool.and_true]
    -- no fork is made where one of the two never matches
    | live entry exits =>
      refine ⟨by rw [Shape.isNever, hc, hd.1, Bool.and_false], fun t ht => ?_⟩
      obtain ⟨s, hs, hlays⟩ := hd.2 t ht
      exact ⟨s, hs, .second hc hd.1 (hlays.mono hlo (Nat.le_refl _))⟩
  | live entry exits =>
    cases g with
    | never =>
      refine gives_pure fun P n _ lo mid hlo hmid hc hd =>
        ⟨by rw [Shape.isNever, hc.1, Bool.false_and], fun t ht => ?_⟩
      obtain ⟨s, hs, hlays⟩ := hc.2 t ht
      exact ⟨s, hs, .first hc.1 hd (hlays.mono (Nat.le_refl _) hmid)⟩
    | live entry' exits' =>
      refine (gives_emit Instr.savesGroup_fork).bind fun pc =>
        gives_pure fun P n _ top _ hemit lo mid hlo hmid hc hd =>
          ⟨by rw [Shape.isNever, hc.1, Bool.false_and], fun t ht => ?_⟩
      obtain ⟨hin, hpc, hfills⟩ := hemit
      obtain ⟨x, hx, hcx⟩ := hc.2 t fun hole h => ht hole (List.mem_append_left _ h)
      obtain ⟨y, hy, hdy⟩ := hd.2 t fun hole h => ht hole (List.mem_append_right _ h)
      rw [← hx, ← hy] at hfills
      exact ⟨⟨pc, hpc⟩, rfl,
        .choice hc.1 hd.1 hcx hdy hin (Program.instr_of_fills hfills) ⟨hlo, hmid⟩⟩

/-- A fork between a fragment and an edge that leads nowhere yet. -/
theorem gives_branch {greedy : Bool} : Gives (branch limit greedy f) fun P lo hi r =>
    ∃ s : Fin P.size, s.val = r.1 ∧ (lo ≤ s ∧ s < hi) ∧ ∀ t : Fin P.size, P.Leads r.2 t →
      ∃ x : Fin P.size, x.val = f.entry ∧ P.instr s = .fork (Shape.arms greedy x t) := by
  cases greedy with
  | true =>
    refine (gives_emit Instr.savesGroup_fork).bind fun pc => gives_pure fun P _ _ _ _ hemit => ?_
    obtain ⟨hin, hpc, hfills⟩ := hemit
    exact ⟨⟨pc, hpc⟩, rfl, hin, fun t ht => Program.exists_fork_of_fills true hfills ht⟩
  | false =>
    refine (gives_emit Instr.savesGroup_fork).bind fun pc => gives_pure fun P _ _ _ _ hemit => ?_
    obtain ⟨hin, hpc, hfills⟩ := hemit
    exact ⟨⟨pc, hpc⟩, rfl, hin, fun t ht => Program.exists_fork_of_fills false hfills ht⟩

/-- A fragment or nothing. -/
theorem gives_optional {greedy : Bool} : Gives (optional limit greedy f) fun P top hi h =>
    ∀ lo ≤ top, P.Represents c lo top f → P.Represents (.optional greedy c) lo hi h := by
  refine gives_branch.bind fun r =>
    gives_pure fun P n hroot top _ hbranch lo hlo hc => ⟨rfl, fun t ht => ?_⟩
  obtain ⟨s, hs, hin, hfork⟩ := hbranch
  obtain ⟨x, hx, hinstr⟩ := hfork t (ht _ List.mem_cons_self)
  obtain ⟨y, hy, hlays⟩ := hc.lays hroot fun hole h => ht hole (List.mem_cons_of_mem _ h)
  have hxy : x = y := Fin.ext (hx.trans hy.symm)
  exact ⟨s, hs, .optional (hxy ▸ hlays) hlo hin hinstr⟩

/-- A fragment any number of times. -/
theorem gives_star {greedy : Bool} : Gives (star limit greedy f) fun P top hi h =>
    ∀ lo ≤ top, P.Represents c lo top f → P.Loops greedy c f.entry lo hi h := by
  refine gives_branch.bind fun r => gives_link.bind fun _ =>
    gives_pure fun P n hroot n' hn hleads top _ hbranch lo hlo hc t ht => ?_
  obtain ⟨s, hs, hin, hfork⟩ := hbranch
  obtain ⟨x, hx, hinstr⟩ := hfork t (ht _ List.mem_cons_self)
  rw [← hs] at hleads
  obtain ⟨y, hy, hlays⟩ := hc.lays hroot hleads
  have hxy : x = y := Fin.ext (hx.trans hy.symm)
  exact ⟨s, x, top, hs, hx, hinstr, hxy ▸ hlays, hlo, hin.1, by omega⟩

/-- A fragment once or more. -/
theorem gives_plus {greedy : Bool} : Gives (plus limit greedy f) fun P top hi h =>
    ∀ lo ≤ top, P.Represents c lo top f → P.Represents (.plus greedy c) lo hi h := by
  cases f with
  | never => exact gives_pure fun P _ _ _ _ hc => hc
  | live entry exits =>
    refine (gives_star (c := c)).bind fun loop =>
      gives_pure fun P n _ top _ hstar lo hlo hc => ⟨hc.1, fun t ht => ?_⟩
    have hloop := hstar lo hlo hc
    cases loop with
    | never => exact hloop.elim
    | live =>
      obtain ⟨l, x, top', -, hx, hfork, hlays, hrange, hin⟩ := hloop t ht
      exact ⟨x, hx, .plus hc.1 hlays hrange hin hfork⟩

/-! ## Copies -/

variable {copy : Assembly Fragment}

theorem gives_joinCopies (hcopy : Gives copy fun P lo hi f => P.Represents d lo hi f)
    (count : Nat) {c : Shape} {f : Fragment} : Gives (joinCopies copy count f) fun P top hi h =>
      ∀ lo ≤ top, P.Represents c lo top f → P.Represents (d.copies count c) lo hi h := by
  induction count generalizing c f with
  | zero => exact gives_pure fun P _ _ _ _ hc => hc
  | succ count ih =>
    refine hcopy.bind fun next => (gives_join (c := c) (d := d)).bind fun joined =>
      (ih (c := .seq c d)).mono fun P n hi h _ hrest => ?_
    intro top hjoined hjoin mid hmid hnext lo hlo hc
    refine hrest lo (by omega) (hjoin hc hnext (.inl (Nat.le_refl _)) ?_ ?_) <;> omega

/-- Optional copies around an inner one, if there is any. -/
theorem gives_nestCopies {greedy : Bool}
    (hcopy : Gives copy fun P lo hi f => P.Represents d lo hi f) (count : Nat)
    {inner : Option Fragment} {c : Option Shape} (h : inner.isSome = c.isSome) :
    Gives (nestCopies limit greedy copy count inner) fun P top hi r => ∀ lo ≤ top,
      Option.Rel (fun c f => P.Represents c lo top f) c inner →
        Option.Rel (fun c f => P.Represents c lo hi f) (d.nest greedy count c) r := by
  -- copies are made from the inside out, and the inner one goes along
  induction count generalizing inner c with
  | zero => exact gives_pure fun P _ _ _ _ hc => hc
  | succ count ih =>
    refine hcopy.bind fun outer => ?_
    cases inner with
    | none =>
      cases c with
      | some c => cases h
      | none =>
        show Gives (optional limit greedy outer >>= fun body =>
          nestCopies limit greedy copy count (some body)) _
        refine (gives_optional (c := d)).bind fun body => ?_
        refine (ih (c := some (.optional greedy d)) rfl).mono fun P n hi r _ hrest => ?_
        intro top htop hbody mid hmid houter lo hlo _
        exact hrest lo (by omega) (.some ((hbody mid hmid houter).mono hlo (Nat.le_refl _)))
    | some inner =>
      cases c with
      | none => cases h
      | some c =>
        refine (gives_join (c := d) (d := c)).bind fun joined => ?_
        refine (gives_optional (c := .seq d c)).bind fun body => ?_
        refine (ih (c := some (.optional greedy (.seq d c))) rfl).mono fun P n hi r _ hrest => ?_
        intro top htop hbody mid hmid hjoin bottom hbottom houter lo hlo hinner
        cases hinner with
        | some hinner =>
          -- the inner copies have been added before the outer one
          have hjoined := hjoin houter hinner (.inr (Nat.le_refl _)) ⟨hlo, Nat.le_refl _⟩
            ⟨hmid, by omega⟩
          exact hrest lo (by omega) (.some (hbody lo (by omega) hjoined))

/-- Bounds that are let pass can be met. -/
theorem gives_checkBounds (min : Nat) (max : Option Nat) :
    Gives (checkBounds min max) fun _ _ _ _ => ∀ m, max = some m → min ≤ m := by
  have hmin : ∀ {Q : Program → Nat → Nat → Unit → Prop}, (∀ (P : Program) (n : Nat), Q P n n ()) →
      Gives (if Expr.maxRepeat < min then throw (.repeatTooLarge min) else pure ()) Q := by
    intro Q hQ
    split
    · exact gives_throw
    · exact gives_pure fun P n _ => hQ P n
  unfold checkBounds
  cases max with
  | none => exact hmin fun _ _ _ h => nomatch h
  | some max =>
    dsimp only
    split
    · exact gives_throw
    · next hle =>
      split
      · exact gives_throw
      · refine hmin fun _ _ m hm => ?_
        cases hm
        exact Nat.not_lt.mp hle

/-- From `min` copies to `max`. -/
theorem gives_times (hcopy : Gives copy fun P lo hi f => P.Represents d lo hi f) (min : Nat)
    (max : Option Nat) (greedy : Bool) :
    Gives (times limit copy min max greedy) fun P lo hi f =>
      P.Represents (d.times min max greedy) lo hi f := by
  unfold times
  refine (gives_checkBounds min max).bind fun _ => ?_
  have hcopies : ∀ count first, Gives (joinCopies copy count first) fun P top hi f =>
      ∀ lo ≤ top, P.Represents .skip lo top first →
        P.Represents (d.copies count .skip) lo hi f :=
    fun count first => gives_joinCopies hcopy count
  cases max with
  | none =>
    cases min with
    | zero =>
      refine hcopy.bind fun body => (gives_star (c := d)).mono fun P top hi f _ hstar => ?_
      intro mid hmid hbody lo hlo _
      exact ((hstar mid hmid hbody).represents).mono hlo (Nat.le_refl _)
    | succ min =>
      -- the last copy that is asked for is the body of the loop
      refine gives_skip.bind fun first => (hcopies min first).bind fun front => ?_
      refine hcopy.bind fun last => (gives_plus (c := d)).bind fun loop => ?_
      refine (gives_join (c := d.copies min .skip) (d := .plus greedy d)).mono ?_
      intro P n hi f hle hjoin top htop hloop last hlast' hlast mid hmid hfront m hm hfirst lo hlo _
      refine hjoin (hfront m hm hfirst) (hloop last hlast' hlast) (.inl (Nat.le_refl _)) ?_ ?_ <;>
        omega
  | some max =>
    refine gives_skip.bind fun first => (hcopies min first).bind fun front => ?_
    refine (gives_nestCopies hcopy (max - min) (c := none) rfl).bind fun rest => ?_
    -- without copies beyond `min` there is no inner part, in the shape and in the fragment
    cases hnest : d.nest greedy (max - min) none with
    | none =>
      cases rest with
      | none =>
        refine gives_pure fun P n _ top htop _ mid hmid hfront m hm hfirst lo hlo hbounds => ?_
        rw [Shape.times_of_le (hbounds max rfl), hnest]
        exact (hfront m hm hfirst).mono hlo htop
      | some rest =>
        refine (gives_join (c := d) (d := d)).mono ?_
        intro P n hi f _ _ top htop hrest
        cases hrest top (Nat.le_refl _) .none
    | some c =>
      cases rest with
      | none =>
        refine gives_pure fun P n _ top htop hrest => ?_
        cases hrest top (Nat.le_refl _) .none
      | some rest =>
        refine (gives_join (c := d.copies min .skip) (d := c)).mono ?_
        intro P n hi f hle hjoin top htop hrest mid hmid hfront m hm hfirst lo hlo hbounds
        rw [Shape.times_of_le (hbounds max rfl), hnest]
        cases hrest top (Nat.le_refl _) .none with
        | some hrest =>
          refine hjoin (hfront m hm hfirst) hrest (.inl (Nat.le_refl _)) ?_ ?_ <;> omega

end Assembly

/-! ## Expressions -/

namespace Expr

open Assembly

variable {limit : Nat} {c : Shape} {f : Fragment}

theorem gives_literal {ch : Char} {fold : Bool} :
    Gives (Assembly.literal limit ch fold) fun P lo hi f =>
      P.Represents (.read (literalClass ch fold)) lo hi f :=
  gives_consume

theorem gives_assembleText (chars : List Char) {c : Shape} {f : Fragment} :
    Gives (assembleText limit f chars) fun P top hi h => ∀ lo ≤ top,
      P.Represents c lo top f → P.Represents (textShape c chars) lo hi h := by
  induction chars generalizing c f with
  | nil => exact gives_pure fun P _ _ _ _ hc => hc
  | cons ch rest ih =>
    refine gives_literal.bind fun next =>
      (gives_join (c := c) (d := .read (literalClass ch false))).bind fun joined => ?_
    refine (ih (c := .seq c (.read (literalClass ch false)))).mono fun P n hi h _ hrest => ?_
    intro top htop hjoin mid hmid hnext lo hlo hc
    refine hrest lo (by omega) (hjoin hc hnext (.inl (Nat.le_refl _)) ?_ ?_) <;> omega

mutual

/-- **The fragment of an expression has the shape of the expression.** -/
theorem gives_assemble : ∀ e : Expr,
    Gives (assemble limit e) fun P lo hi f => P.Represents e.shape lo hi f
  | empty => gives_skip
  | never => gives_pure fun _ _ _ => rfl
  | literal _ _ => gives_literal
  | text [] => gives_skip
  | text (_ :: rest) => gives_literal.bind fun _ => gives_assembleText rest
  | oneOf _ => gives_oneOf
  | noneOf _ => gives_oneOf
  | any => gives_consume
  | anyButNewline => gives_consume
  | assert _ => gives_single rfl nofun rfl fun _ _ _ _ _ hin h => .check hin h
  | concat [] => gives_skip
  | concat (e :: rest) => (gives_assemble e).bind fun _ => gives_assembleConcat rest
  | alternate [] => gives_pure fun _ _ _ => rfl
  | alternate (e :: rest) => (gives_assemble e).bind fun _ => gives_assembleAlternate rest
  | star body _ => (gives_assemble body).bind fun _ =>
      (gives_star (c := body.shape)).mono fun _ _ _ _ _ h lo hlo hbody =>
        (h lo hlo hbody).represents
  | plus body _ => (gives_assemble body).bind fun _ => gives_plus
  | optional body _ => (gives_assemble body).bind fun _ => gives_optional
  | times body min max greedy => gives_times (gives_assemble body) min max greedy
  | capture index body => by
    by_cases hindex : index = 0
    · rw [assemble, if_pos hindex]
      exact gives_throw
    have hpos : 0 < index.toNat :=
      Nat.pos_of_ne_zero fun hzero => hindex (UInt32.toNat_inj.mp hzero)
    have hlt : index.toNat < 2 ^ 32 := index.toNat_lt
    have hcounted : 2 * index.toNat + 1 + 2 < UInt64.size := by
      unfold UInt64.size
      omega
    rw [assemble, if_neg hindex]
    refine (gives_save (2 * index.toNat) (by omega)).bind fun opening => ?_
    refine (gives_assemble body).bind fun inside => ?_
    refine (gives_save (2 * index.toNat + 1) (by omega)).bind fun closing => ?_
    refine (gives_join (c := .save (2 * index.toNat)) (d := body.shape)).bind fun first => ?_
    refine (gives_join (c := .seq (.save (2 * index.toNat)) body.shape)
      (d := .save (2 * index.toNat + 1))).mono ?_
    intro P n hi h _ hwhole n' hn' hfirst n'' hn'' hclosing top htop hinside lo hlo hopening
    have hfront := hfirst hopening hinside (.inl (Nat.le_refl _)) ⟨Nat.le_refl _, hlo⟩
      ⟨htop, Nat.le_refl _⟩
    refine hwhole hfront hclosing (.inl (Nat.le_refl _)) ?_ ?_ <;> omega

theorem gives_assembleConcat : ∀ (es : List Expr) {c : Shape} {f : Fragment},
    Gives (assembleConcat limit f es) fun P top hi h => ∀ lo ≤ top,
      P.Represents c lo top f → P.Represents (concatShape c es) lo hi h
  | [], _, _ => gives_pure fun _ _ _ _ _ hc => hc
  | e :: rest, c, _ => by
    refine (gives_assemble e).bind fun next =>
      (gives_join (c := c) (d := e.shape)).bind fun joined =>
        (gives_assembleConcat rest (c := .seq c e.shape)).mono fun P n hi h _ hrest => ?_
    intro top htop hjoin mid hmid hnext lo hlo hc
    refine hrest lo (by omega) (hjoin hc hnext (.inl (Nat.le_refl _)) ?_ ?_) <;> omega

theorem gives_assembleAlternate : ∀ (es : List Expr) {c : Shape} {f : Fragment},
    Gives (assembleAlternate limit f es) fun P top hi h => ∀ lo ≤ top,
      P.Represents c lo top f → P.Represents (alternateShape c es) lo hi h
  | [], _, _ => gives_pure fun _ _ _ _ _ hc => hc
  | e :: rest, c, _ => by
    refine (gives_assemble e).bind fun next =>
      (gives_choose (c := c) (d := e.shape)).bind fun chosen =>
        (gives_assembleAlternate rest (c := .choice c e.shape)).mono fun P n hi h _ hrest => ?_
    intro top htop hchoose mid hmid hnext lo hlo hc
    exact hrest lo (by omega) (hchoose hlo hmid hc hnext)

end

end Expr

/-! ## Programs of expressions -/

namespace Program

variable {P : Program} {e : Expr} {b : Builder}

/-- A program has the shape of an expression between its start and an accepting address. -/
def Implements (P : Program) (e : Expr) : Prop :=
  ∃ t, P.instr t = .accept ∧ P.Spans e.shape P.start t

/-- A program fails at the address 0, and has the shape of an expression between its start and an
accepting address. The instructions of the shape lie between these two. -/
def LaysOut (P : Program) (e : Expr) : Prop :=
  P.Rooted ∧ ∃ t, P.instr t = .accept ∧ P.Lays e.shape 1 t P.start t

theorem LaysOut.implements (h : P.LaysOut e) : P.Implements e := by
  obtain ⟨-, t, hacc, hlays⟩ := h
  exact ⟨t, hacc, hlays.spans⟩

/-- **A finished program lays out its expression**, and writes only the slots of groups. -/
theorem laysOut_of_build {limit : Nat} (hbuild : e.build limit = .ok b) (h : P.Finishes b) :
    P.LaysOut e ∧ ∀ pc, (P.instr pc).SavesGroup := by
  obtain ⟨⟨_, b'⟩, hbuild, hb⟩ := Builder.exists_ok_of_bind hbuild
  cases hb
  obtain ⟨body, b₁, hassemble, hbuild⟩ := Assembly.exists_of_bind hbuild
  obtain ⟨accepting, b₂, hemit, hbuild⟩ := Assembly.exists_of_bind hbuild
  obtain ⟨_, b₃, hlink, hstart⟩ := Assembly.exists_of_bind hbuild
  cases hstart
  obtain ⟨hgrows₁, hle, hbody⟩ := Expr.gives_assemble e _ _ _ hassemble
  obtain ⟨hgrows₂, -, haccept⟩ := Assembly.gives_emit (i := .accept) nofun _ _ _ hemit
  obtain ⟨hgrows₃, -, hleads⟩ := Assembly.gives_link _ _ _ hlink
  -- the finished program keeps what each of the three steps has built
  have hP : P.Realises b₃ := ⟨h.realises.instr, h.realises.links⟩
  have hgrows := (hgrows₁.trans hgrows₂).trans hgrows₃
  have hroot : P.Rooted := by
    obtain ⟨hpos, hfills⟩ := hP.instr 0 .fail (hgrows.code 0 .fail rfl)
    exact ⟨hpos, hfills.eq_fail⟩
  constructor
  · obtain ⟨hin, hpc, hfills⟩ := haccept P (hP.mono hgrows₃) hroot
    have hrep := hbody P (hP.mono (hgrows₂.trans hgrows₃)) hroot
    obtain ⟨s, hs, hlays⟩ := hrep.lays hroot (t := ⟨accepting, hpc⟩) (hleads P hP hroot)
    have hstart : s = P.start := Fin.ext (hs.trans h.start.symm)
    exact ⟨hroot, ⟨accepting, hpc⟩, hfills.eq_accept,
      hstart ▸ hlays.mono (Nat.le_refl _) hin.1⟩
  · intro pc slot next hpc
    -- a capture write of the program was one in the builder
    have hlt : pc.val < b₃.code.size := lt_of_lt_of_eq pc.isLt h.size
    obtain ⟨_, hfills⟩ := hP.instr pc b₃.code[pc.val] (Array.getElem?_eq_getElem hlt)
    rw [openInstr, hpc] at hfills
    obtain ⟨next', hnext'⟩ := hfills.exists_save
    refine hgrows.groups ?_ _ (Array.getElem_mem hlt) slot next' hnext'
    intro i hi slot' next' hsave
    rw [List.mem_singleton.mp (Array.mem_toList_iff.mpr hi)] at hsave
    cases hsave

end Program

end Lockstep
