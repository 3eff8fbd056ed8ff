import Lockstep.Proofs.Assembling
import Mathlib.Data.Multiset.Bind

/-!
# Every open edge has one owner

While a program is built, each edge that leads nowhere yet belongs to exactly one fragment, or a
link for it has been noted down. Joining fragments hands edges over, and never drops or doubles
one; also if one of the fragments never matches. And from each instruction there is a way on to an
instruction that ends a thread, or to an edge that a fragment still owns.

- `Hole.IsOpenIn`, `Builder.LeadsTo`, `Builder.Escapes`: open edges, edges, and ways on.
- `Builder.Owes`: each open edge is to be linked once, all edges lead into the program, and there is
  a way on from everywhere.
- `Builder.Owes.push`, `Builder.Owes.link`: what the two ways to add to a program do to that.
- `Builder.Carries`: some fragments own what a program owes.
- `Assembly.Turns`: an action turns fragments into others, whatever fragments there are beside them.
- `Expr.turns_assemble`: the action of an expression turns nothing into its fragment.
- `Builder.Complete`, `Expr.complete_build`: in the end each open edge has one link.
-/

namespace Lockstep

/-! ## Open edges and ways on -/

/-- The edge is there and leads nowhere yet. -/
def Hole.IsOpenIn (hole : Hole) (code : Array (Instr Edge)) : Prop :=
  code[hole.pc]?.bind (fun i => i.successors[hole.arm]?) = some none

namespace Instr

/-- The open edges of an instruction that stands at `pc`. -/
def openEdges (i : Instr Edge) (pc : Nat) : Multiset Hole :=
  ((List.range i.successors.length).filter fun arm => i.successors[arm]? = some none).map
    (Hole.mk pc)

variable {i : Instr Edge} {pc : Nat}

theorem mem_openEdges {hole : Hole} :
    hole ∈ i.openEdges pc ↔ hole.pc = pc ∧ i.successors[hole.arm]? = some none := by
  obtain ⟨pc', arm⟩ := hole
  simp only [openEdges, Multiset.mem_coe, List.mem_map, List.mem_filter, List.mem_range,
    decide_eq_true_eq, Hole.mk.injEq]
  constructor
  · rintro ⟨arm, ⟨-, hopen⟩, rfl, rfl⟩
    exact ⟨rfl, hopen⟩
  · rintro ⟨rfl, hopen⟩
    exact ⟨arm, ⟨(List.getElem?_eq_some_iff.mp hopen).1, hopen⟩, rfl, rfl⟩

theorem nodup_openEdges (i : Instr Edge) (pc : Nat) : (i.openEdges pc).Nodup :=
  (List.nodup_range.filter _).map fun _ _ h => (Hole.mk.inj h).2

end Instr

namespace Builder

variable {b b' : Builder} {hs hs' : Multiset Hole} {pc target : Nat}

/-- The edges for which a link has been noted down. -/
def linkedHoles (b : Builder) : Multiset Hole := b.links.toList.map Prod.fst

/-- There is an edge from one address to another, or a link has been noted down for one. -/
def LeadsTo (b : Builder) (pc target : Nat) : Prop :=
  (∃ i, b.code[pc]? = some i ∧ some target ∈ i.successors) ∨
    ∃ arm, (⟨pc, arm⟩, target) ∈ b.links

/-- There is a way from an address to an instruction that ends a thread, or to one of the edges
`hs`. -/
inductive Escapes (b : Builder) (hs : Multiset Hole) : Nat → Prop where
  | stop {pc : Nat} {i : Instr Edge} (h : b.code[pc]? = some i) (hstop : i = .accept ∨ i = .fail) :
    Escapes b hs pc
  | hole {pc arm : Nat} (h : ⟨pc, arm⟩ ∈ hs) : Escapes b hs pc
  | edge {pc target : Nat} (h : b.LeadsTo pc target) (rest : Escapes b hs target) : Escapes b hs pc

/-- Edges are still there if there are more instructions and links. -/
theorem LeadsTo.grow (h : b.LeadsTo pc target)
    (hcode : ∀ (pc : Nat) (i : Instr Edge), b.code[pc]? = some i → b'.code[pc]? = some i)
    (hlinks : ∀ link ∈ b.links, link ∈ b'.links) : b'.LeadsTo pc target := by
  rcases h with ⟨i, hi, hmem⟩ | ⟨arm, hlink⟩
  · exact .inl ⟨i, hcode pc i hi, hmem⟩
  · exact .inr ⟨arm, hlinks _ hlink⟩

theorem LeadsTo.link (h : b.LeadsTo pc target) (holes : List Hole) (target' : Nat) :
    (b.link holes target').LeadsTo pc target :=
  h.grow (fun _ _ hi => hi) fun _ hlink => Array.mem_append.mpr (.inl hlink)

theorem leadsTo_link {holes : List Hole} {arm : Nat} (h : ⟨pc, arm⟩ ∈ holes) (target : Nat) :
    (b.link holes target).LeadsTo pc target :=
  .inr ⟨arm, Array.mem_append.mpr (.inr (by simpa using h))⟩

theorem Escapes.mono (h : b.Escapes hs pc) (hle : hs ≤ hs') : b.Escapes hs' pc := by
  induction h with
  | stop h hstop => exact .stop h hstop
  | hole h => exact .hole (Multiset.mem_of_le hle h)
  | edge h _ ih => exact .edge h ih

/-- Ways on are still there if there are more instructions and links. -/
theorem Escapes.grow (h : b.Escapes hs pc)
    (hcode : ∀ (pc : Nat) (i : Instr Edge), b.code[pc]? = some i → b'.code[pc]? = some i)
    (hlinks : ∀ link ∈ b.links, link ∈ b'.links) : b'.Escapes hs pc := by
  induction h with
  | stop h hstop => exact .stop (hcode _ _ h) hstop
  | hole h => exact .hole h
  | edge h _ ih => exact .edge (h.grow hcode hlinks) ih

theorem Escapes.push (h : b.Escapes hs pc) (i : Instr Edge) : (b.push i).Escapes hs pc :=
  h.grow (fun _ _ hj => getElem?_code_push hj i) fun _ hlink => hlink

/-- Linking edges keeps the ways on that led to other ones. -/
theorem Escapes.link (h : b.Escapes hs pc) (holes : List Hole) (target : Nat) :
    (b.link holes target).Escapes hs pc :=
  h.grow (fun _ _ hi => hi) fun _ hlink => Array.mem_append.mpr (.inl hlink)

/-- A way on to one of the edges that have been linked goes on from where they lead. -/
theorem Escapes.through {holes : List Hole} (h : b.Escapes (holes + hs) pc)
    (htarget : b.Escapes hs target) : (b.link holes target).Escapes hs pc := by
  induction h with
  | stop h hstop => exact .stop h hstop
  | hole h =>
    rcases Multiset.mem_add.mp h with h | h
    · exact .edge (leadsTo_link (Multiset.mem_coe.mp h) target) (htarget.link holes target)
    · exact .hole h
  | edge h _ ih => exact .edge (h.link holes target) ih

/-! ## What a program owes -/

/-- The program fails at the address 0; each open edge has a link, or is one of the edges `hs`, and
no edge does so twice; all edges lead into the program; and from everywhere there is a way to an
instruction that ends a thread or to one of the edges `hs`. -/
structure Owes (b : Builder) (hs : Multiset Hole) : Prop where
  root : b.code[0]? = some .fail
  nodup : (b.linkedHoles + hs).Nodup
  mem_iff : ∀ hole, hole ∈ b.linkedHoles + hs ↔ hole.IsOpenIn b.code
  target : ∀ pc target, b.LeadsTo pc target → target < b.code.size
  escapes : ∀ pc < b.code.size, b.Escapes hs pc

/-- A program that only fails. -/
theorem owes_root : Owes { code := #[.fail] } 0 where
  root := rfl
  nodup := List.nodup_nil
  mem_iff hole := by
    refine iff_of_false (Multiset.notMem_zero hole) fun h => ?_
    obtain ⟨pc, arm⟩ := hole
    cases pc <;> cases h
  target pc target h := by
    rcases h with ⟨i, hi, hmem⟩ | ⟨arm, hlink⟩
    · cases pc with
      | zero =>
        obtain rfl : Instr.fail = i := Option.some.inj hi
        exact absurd hmem List.not_mem_nil
      | succ => cases hi
    · exact absurd (Array.mem_toList_iff.mpr hlink) List.not_mem_nil
  escapes pc hpc := by
    obtain rfl : pc = 0 := Nat.lt_one_iff.mp hpc
    exact .stop rfl (.inr rfl)

theorem Owes.pos (h : b.Owes hs) : 0 < b.code.size :=
  (Array.getElem?_eq_some_iff.mp h.root).1

/-- What is owed stands in the program. -/
theorem Owes.pc_lt (h : b.Owes hs) {hole : Hole} (hmem : hole ∈ b.linkedHoles + hs) :
    hole.pc < b.code.size := by
  by_contra hle
  have hopen := (h.mem_iff hole).mp hmem
  rw [Hole.IsOpenIn, Array.getElem?_eq_none (Nat.le_of_not_lt hle)] at hopen
  cases hopen

theorem isOpenIn_push {i : Instr Edge} {hole : Hole} : hole.IsOpenIn (b.push i).code ↔
    hole ∈ i.openEdges b.code.size ∨ hole.IsOpenIn b.code := by
  rw [Instr.mem_openEdges]
  show (b.code.push i)[hole.pc]?.bind _ = _ ↔ _ ∨ b.code[hole.pc]?.bind _ = _
  by_cases hpc : hole.pc = b.code.size
  · rw [hpc, Array.getElem?_push_size, Array.getElem?_eq_none (Nat.le_refl _)]
    simp
  · rw [Array.getElem?_push, if_neg hpc]
    simp [hpc]

/-- **A new instruction** adds its open edges to what is owed. -/
theorem Owes.push (h : b.Owes hs) {i : Instr Edge}
    (htarget : ∀ target, some target ∈ i.successors → target < b.code.size)
    (hstop : i.successors = [] → i = .accept) :
    (b.push i).Owes (i.openEdges b.code.size + hs) where
  root := getElem?_code_push h.root i
  nodup := by
    show (b.linkedHoles + (i.openEdges b.code.size + hs)).Nodup
    rw [add_left_comm, Multiset.nodup_add]
    refine ⟨i.nodup_openEdges _, h.nodup, Multiset.disjoint_left.mpr ?_⟩
    intro hole hnew hold
    have hlt := h.pc_lt hold
    rw [(Instr.mem_openEdges.mp hnew).1] at hlt
    exact Nat.lt_irrefl _ hlt
  mem_iff hole := by
    show hole ∈ b.linkedHoles + (i.openEdges b.code.size + hs) ↔ _
    rw [add_left_comm, Multiset.mem_add, h.mem_iff, isOpenIn_push]
  target pc target hleads := by
    have hsize : (b.push i).code.size = b.code.size + 1 := Array.size_push i
    rw [hsize]
    rcases hleads with ⟨j, hj, hmem⟩ | hlink
    · have hj : (b.code.push i)[pc]? = some j := hj
      rw [Array.getElem?_push] at hj
      split at hj
      · cases hj
        exact Nat.lt_succ_of_lt (htarget target hmem)
      · exact Nat.lt_succ_of_lt (h.target pc target (.inl ⟨j, hj, hmem⟩))
    · exact Nat.lt_succ_of_lt (h.target pc target (.inr hlink))
  escapes pc hpc := by
    have hsize : (b.push i).code.size = b.code.size + 1 := Array.size_push i
    have hold : ∀ pc < b.code.size, (b.push i).Escapes (i.openEdges b.code.size + hs) pc :=
      fun pc hpc => ((h.escapes pc hpc).push i).mono (Multiset.le_add_left _ _)
    rcases Nat.lt_or_eq_of_le (Nat.le_of_lt_succ (hsize ▸ hpc)) with hlt | rfl
    · exact hold pc hlt
    · -- the new instruction stops, or its first edge is open or leads somewhere
      have hlast : (b.push i).code[b.code.size]? = some i := Array.getElem?_push_size
      cases hsucc : i.successors with
      | nil => exact .stop hlast (.inl (hstop hsucc))
      | cons edge edges =>
        cases edge with
        | none =>
          refine @Escapes.hole _ _ _ 0 (Multiset.mem_add.mpr (.inl ?_))
          exact Instr.mem_openEdges.mpr ⟨rfl, by rw [hsucc]; rfl⟩
        | some target =>
          have hmem : some target ∈ i.successors := hsucc ▸ List.mem_cons_self
          exact .edge (.inl ⟨i, hlast, hmem⟩) (hold target (htarget target hmem))

theorem linkedHoles_link (b : Builder) (holes : List Hole) (target : Nat) :
    (b.link holes target).linkedHoles = b.linkedHoles + holes := by
  simp [linkedHoles, Builder.link, Function.comp_def]

/-- **Links** take the edges that they are for from what is owed, if there is a way on from where
they lead. -/
theorem Owes.link {holes : List Hole} (h : b.Owes (holes + hs)) (htarget : b.Escapes hs target)
    (hlt : target < b.code.size) : (b.link holes target).Owes hs where
  root := h.root
  nodup := by
    rw [linkedHoles_link, add_assoc]
    exact h.nodup
  mem_iff hole := by
    rw [linkedHoles_link, add_assoc]
    exact h.mem_iff hole
  target pc target' hleads := by
    rcases hleads with hcode | ⟨arm, hlink⟩
    · exact h.target pc target' (.inl hcode)
    · rcases Array.mem_append.mp hlink with hlink | hlink
      · exact h.target pc target' (.inr ⟨arm, hlink⟩)
      · obtain ⟨hole, -, heq⟩ := List.mem_map.mp (List.mem_toArray.mp hlink)
        cases heq
        exact hlt
  escapes pc hpc := (h.escapes pc hpc).through htarget

/-- Where a program starts does not matter for what it owes. -/
theorem Owes.startAt (h : b.Owes hs) (start : Nat) : (b.startAt start).Owes hs where
  root := h.root
  nodup := h.nodup
  mem_iff := h.mem_iff
  target := h.target
  escapes pc hpc := (h.escapes pc hpc).grow (fun _ _ hi => hi) fun _ hlink => hlink

end Builder

/-! ## Fragments as owners -/

/-- A fragment is entered inside the program, and from there is a way to an instruction that ends a
thread or out of the fragment. -/
def Fragment.Enters (f : Fragment) (b : Builder) : Prop :=
  f.entry < b.code.size ∧ b.Escapes f.exits f.entry

theorem Fragment.Enters.push {f : Fragment} {b : Builder} (h : f.Enters b) (i : Instr Edge) :
    f.Enters (b.push i) :=
  ⟨Nat.lt_of_lt_of_le h.1 (by simp [Builder.push]), h.2.push i⟩

theorem Fragment.Enters.link {f : Fragment} {b : Builder} (h : f.Enters b) (holes : List Hole)
    (target : Nat) : f.Enters (b.link holes target) :=
  ⟨h.1, h.2.link holes target⟩

namespace Builder

/-- The edges that leave some fragments. -/
def exits (fs : Multiset Fragment) : Multiset Hole := fs.bind fun f => (f.exits : Multiset Hole)

@[simp] theorem exits_zero : exits 0 = 0 := Multiset.zero_bind _

@[simp] theorem exits_add (fs gs : Multiset Fragment) : exits (fs + gs) = exits fs + exits gs :=
  Multiset.add_bind ..

@[simp] theorem exits_singleton (f : Fragment) : exits {f} = (f.exits : Multiset Hole) :=
  Multiset.singleton_bind ..

/-- What the program owes are the edges that leave these fragments. -/
structure Carries (b : Builder) (fs : Multiset Fragment) : Prop where
  owes : b.Owes (exits fs)
  enters : ∀ f ∈ fs, f.Enters b

variable {b : Builder} {f g : Fragment} {fs rest : Multiset Fragment}

/-- The fragment that never matches is entered where the program fails. -/
theorem Owes.enters_never {hs : Multiset Hole} (h : b.Owes hs) : Fragment.never.Enters b :=
  ⟨h.pos, .stop h.root (.inr rfl)⟩

/-- The fragment that never matches owns nothing, so it may be there or not. -/
theorem carries_never_iff : b.Carries ({.never} + fs) ↔ b.Carries fs := by
  have hexits : exits ({.never} + fs) = exits fs := by
    rw [exits_add, exits_singleton]
    exact zero_add _
  constructor
  · intro h
    exact ⟨hexits ▸ h.owes, fun f hf => h.enters f (Multiset.mem_add.mpr (.inr hf))⟩
  · intro h
    refine ⟨hexits.symm ▸ h.owes, fun f hf => ?_⟩
    rcases Multiset.mem_add.mp hf with hf | hf
    · rw [Multiset.mem_singleton.mp hf]
      exact h.owes.enters_never
    · exact h.enters f hf

/-- **A new instruction**, with edges to some fragments, becomes a fragment that owns what some of
these owned. -/
theorem Carries.push (h : b.Carries (fs + rest)) {i : Instr Edge} {out : List Hole}
    (hedges : ∀ edge ∈ i.successors, edge = none ∨ ∃ f ∈ fs + rest, edge = some f.entry)
    (hstop : i.successors = [] → i = .accept)
    (hescape : i.successors ≠ [] → none ∈ i.successors ∨ ∃ f ∈ fs, some f.entry ∈ i.successors)
    (hout : (out : Multiset Hole) = i.openEdges b.code.size + exits fs) :
    (b.push i).Carries ({.live b.code.size out} + rest) := by
  have hlast : (b.push i).code[b.code.size]? = some i := Array.getElem?_push_size
  constructor
  · have howes := h.owes.push (i := i) (fun target hmem => ?_) hstop
    · rw [exits_add, exits_singleton]
      show (b.push i).Owes ((out : Multiset Hole) + exits rest)
      rw [hout, add_assoc, ← exits_add]
      exact howes
    · rcases hedges _ hmem with hopen | ⟨f, hf, heq⟩
      · cases hopen
      · rw [Option.some.inj heq]
        exact (h.enters f hf).1
  · intro f hf
    rcases Multiset.mem_add.mp hf with hf | hf
    · rw [Multiset.mem_singleton.mp hf]
      refine ⟨by simp [Fragment.entry, Builder.push], ?_⟩
      show (b.push i).Escapes (out : Multiset Hole) b.code.size
      rw [hout]
      by_cases hnil : i.successors = []
      · exact .stop hlast (.inl (hstop hnil))
      · rcases hescape hnil with hopen | ⟨g, hg, hmem⟩
        · obtain ⟨arm, harm⟩ := List.mem_iff_getElem?.mp hopen
          have hedge : ⟨b.code.size, arm⟩ ∈ i.openEdges b.code.size :=
            Instr.mem_openEdges.mpr ⟨rfl, harm⟩
          exact .hole (Multiset.mem_add.mpr (.inl hedge))
        · have hescapes := ((h.enters g (Multiset.mem_add.mpr (.inl hg))).2.push i)
          have hle : (g.exits : Multiset Hole) ≤ i.openEdges b.code.size + exits fs :=
            (Multiset.le_bind fs hg).trans (Multiset.le_add_left _ _)
          exact .edge (.inl ⟨i, hlast, hmem⟩) (hescapes.mono hle)
    · exact (h.enters f (Multiset.mem_add.mpr (.inr hf))).push i

/-- **Linking** the edges that leave one fragment to where another one is entered. The one is left
from then on where the other one is. -/
theorem Carries.link (h : b.Carries ({f} + {g} + rest)) :
    (b.link f.exits g.entry).Owes (exits ({g} + rest)) ∧
      (∀ k ∈ {g} + rest, k.Enters (b.link f.exits g.entry)) ∧
      (Fragment.live f.entry g.exits).Enters (b.link f.exits g.entry) := by
  have hf : f.Enters b := h.enters f (by simp)
  have hg : g.Enters b := h.enters g (by simp)
  have howes : b.Owes ((f.exits : Multiset Hole) + exits ({g} + rest)) := by
    have howes := h.owes
    rw [add_assoc, exits_add, exits_singleton] at howes
    exact howes
  have hle : (g.exits : Multiset Hole) ≤ exits ({g} + rest) := by
    rw [exits_add, exits_singleton]
    exact Multiset.le_add_right _ _
  refine ⟨howes.link (hg.2.mono hle) hg.1, ?_, hf.1, ?_⟩
  · intro k hk
    refine (h.enters k ?_).link f.exits g.entry
    rw [add_assoc]
    exact Multiset.mem_add.mpr (.inr hk)
  · exact (hf.2.mono (Multiset.le_add_right _ _)).through hg.2

end Builder

/-! ## What actions do to fragments -/

namespace Assembly

open Builder

variable {α β : Type} {limit : Nat} {f g : Fragment} {fs gs : Multiset Fragment}

/-- An action turns some fragments into others, whatever fragments there are beside them; if it
fails, the fault is not in the program. -/
def Turns (act : Assembly α) (fs : Multiset Fragment) (result : α → Multiset Fragment) : Prop :=
  ∀ b rest, b.Carries (fs + rest) →
    (∀ e, act b = .error e → e.isInternal = false) ∧
      ∀ a b', act b = .ok (a, b') → b'.Carries (result a + rest)

theorem Turns.frame {act : Assembly α} {result : α → Multiset Fragment}
    (h : Turns act fs result) (gs : Multiset Fragment) :
    Turns act (fs + gs) fun a => result a + gs := by
  intro b rest hb
  rw [add_assoc] at hb
  simp only [add_assoc]
  exact h b (gs + rest) hb

theorem turns_pure (a : α) (result : α → Multiset Fragment) :
    Turns (pure a) (result a) result := by
  intro b rest hb
  refine ⟨nofun, ?_⟩
  rintro _ _ ⟨⟩
  exact hb

theorem turns_throw {e : Error} (h : e.isInternal = false) {result : α → Multiset Fragment} :
    Turns (throw e : Assembly α) fs result := by
  intro b rest hb
  refine ⟨?_, nofun⟩
  rintro _ ⟨⟩
  exact h

/-- Two actions one after the other. -/
theorem Turns.bind {act : Assembly α} {next : α → Assembly β} {middle : α → Multiset Fragment}
    {result : β → Multiset Fragment} (h : Turns act fs middle)
    (hnext : ∀ a, Turns (next a) (middle a) result) : Turns (act >>= next) fs result := by
  intro b rest hb
  obtain ⟨herror, hok⟩ := h b rest hb
  constructor
  · intro e he
    have he : (act b >>= fun r => next r.1 r.2) = .error e := he
    cases hact : act b with
    | error e' =>
      rw [hact] at he
      cases he
      exact herror e hact
    | ok r =>
      rw [hact] at he
      exact (hnext r.1 r.2 rest (hok r.1 r.2 hact)).1 e he
  · intro c b'' hc
    obtain ⟨a, b', hfirst, hsecond⟩ := exists_of_bind hc
    exact (hnext a b' rest (hok a b' hfirst)).2 c b'' hsecond

/-- The fragment that never matches can be made of nothing. -/
theorem turns_never : Turns (pure Fragment.never) 0 fun f => {f} := by
  intro b rest hb
  refine ⟨nofun, ?_⟩
  rintro _ _ ⟨⟩
  rw [zero_add] at hb
  exact carries_never_iff.mpr hb

/-- A new instruction with edges to some fragments; the new fragment is left along its open edges
and along those that left the fragments `fs`. -/
theorem turns_emit {i : Instr Edge} {out : Nat → List Hole}
    (hedges : ∀ edge ∈ i.successors, edge = none ∨ ∃ f ∈ fs + gs, edge = some f.entry)
    (hstop : i.successors = [] → i = .accept)
    (hescape : i.successors ≠ [] → none ∈ i.successors ∨ ∃ f ∈ fs, some f.entry ∈ i.successors)
    (hout : ∀ pc, (out pc : Multiset Hole) = i.openEdges pc + exits fs) :
    Turns (emit limit i) (fs + gs) fun pc => {.live pc (out pc)} + gs := by
  intro b rest hb
  unfold emit
  dsimp only
  split
  · refine ⟨?_, nofun⟩
    rintro _ ⟨⟩
    rfl
  · refine ⟨nofun, ?_⟩
    rintro _ _ ⟨⟩
    rw [add_assoc] at hb ⊢
    refine hb.push (fun edge hedge => ?_) hstop hescape (hout _)
    rw [← add_assoc]
    refine (hedges edge hedge).imp_right ?_
    rintro ⟨f, hf, heq⟩
    exact ⟨f, Multiset.mem_add.mpr (.inl hf), heq⟩

/-- A fragment is left where another one is, once the edges that left it lead there. -/
theorem turns_link_through :
    Turns (link f.exits g.entry) ({f} + {g}) fun _ => {.live f.entry g.exits} := by
  intro b rest hb
  refine ⟨nofun, ?_⟩
  rintro _ _ ⟨⟩
  obtain ⟨howes, henters, hthrough⟩ := hb.link
  have hexits : exits ({.live f.entry g.exits} + rest) = exits ({g} + rest) := by
    rw [exits_add, exits_add, exits_singleton, exits_singleton]
    rfl
  refine ⟨hexits ▸ howes, fun k hk => ?_⟩
  rcases Multiset.mem_add.mp hk with hk | hk
  · rw [Multiset.mem_singleton.mp hk]
    exact hthrough
  · exact henters k (Multiset.mem_add.mpr (.inr hk))

/-- The other one is still there. -/
theorem turns_link_into : Turns (link f.exits g.entry) ({f} + {g}) fun _ => {g} := by
  intro b rest hb
  refine ⟨nofun, ?_⟩
  rintro _ _ ⟨⟩
  obtain ⟨howes, henters, -⟩ := hb.link
  exact ⟨howes, henters⟩

/-- The edges that leave a fragment can be given up: they lead to where the program fails. -/
theorem turns_link_fail : Turns (link f.exits 0) {f} fun _ => 0 := by
  intro b rest hb
  have hboth : b.Carries ({f} + {.never} + rest) := by
    rw [add_right_comm, add_comm, carries_never_iff]
    exact hb
  obtain ⟨herror, hok⟩ := turns_link_into (f := f) (g := .never) b rest hboth
  refine ⟨herror, fun a b' hact => ?_⟩
  rw [zero_add]
  exact carries_never_iff.mp (hok a b' hact)

/-! ## Single instructions and joints -/

theorem turns_single {i : Instr Edge} (hi : i.successors = [none]) :
    Turns (single limit i) 0 fun f => {f} := by
  have hemit : Turns (emit limit i) (0 + 0) fun pc => {.live pc [⟨pc, 0⟩]} + 0 := by
    refine turns_emit ?_ ?_ ?_ fun pc => ?_
    · simp [hi]
    · simp [hi]
    · simp [hi]
    · simp [Instr.openEdges, hi]
  exact hemit.bind fun pc => turns_pure (Fragment.live pc [⟨pc, 0⟩]) fun f => {f}

theorem turns_oneOf {table : List SymbolRange} : Turns (oneOf limit table) 0 fun f => {f} := by
  unfold oneOf
  cases SymbolClass.ofNormal? table with
  | none => exact turns_never
  | some cls => exact turns_single rfl

/-- One fragment and then another; if one of them never matches, no edge of the other is lost. -/
theorem turns_join : Turns (join f g) ({f} + {g}) fun h => {h} := by
  have hnever : Turns (do link f.exits 0; link g.exits 0; return Fragment.never) ({f} + {g})
      fun h => {h} := by
    have hfirst : Turns (link f.exits 0) ({f} + {g}) fun _ => 0 + {g} := turns_link_fail.frame {g}
    refine hfirst.bind fun _ => ?_
    rw [zero_add]
    exact turns_link_fail.bind fun _ => turns_never
  cases f with
  | never => exact hnever
  | live entry exits =>
    cases g with
    | never => exact hnever
    | live entry' exits' =>
      exact (turns_link_through (f := .live entry exits) (g := .live entry' exits')).bind
        fun _ => turns_pure (Fragment.live entry exits') fun h => {h}

/-- One fragment or another. -/
theorem turns_choose : Turns (choose limit f g) ({f} + {g}) fun h => {h} := by
  have hkept : ∀ h : Fragment, Turns (pure h) ({h} + {.never}) fun h => {h} := by
    intro h b rest hb
    rw [add_right_comm, add_comm, carries_never_iff] at hb
    exact turns_pure h (fun h => {h}) b rest hb
  cases f with
  | never =>
    rw [add_comm]
    exact hkept g
  | live entry exits =>
    cases g with
    | never => exact hkept (.live entry exits)
    | live entry' exits' =>
      have hemit : Turns (emit limit (.fork [some entry, some entry']))
          ({.live entry exits} + {.live entry' exits'} + 0)
          fun pc => {.live pc (exits ++ exits')} + 0 := by
        refine turns_emit ?_ nofun (fun _ => .inr ⟨.live entry exits, by simp, ?_⟩) fun pc => ?_
        · simp [Instr.successors, Fragment.entry]
        · simp [Instr.successors, Fragment.entry]
        · rw [exits_add, exits_singleton, exits_singleton]
          exact (zero_add _).symm
      exact hemit.bind fun pc => turns_pure (Fragment.live pc (exits ++ exits')) fun h => {h}

/-- A fork in front of a fragment is left along its open edge, and, if it takes over what the
fragment owns, where that is left. -/
theorem turns_branch {greedy : Bool} {out : List Hole} (hf : f ∈ fs + gs)
    (hout : (out : Multiset Hole) = exits fs) :
    Turns (branch limit greedy f) (fs + gs) fun r => {.live r.1 (r.2 :: out)} + gs := by
  have hexits : ∀ hole : Hole, ((hole :: out : List Hole) : Multiset Hole) = {hole} + exits fs := by
    intro hole
    rw [← hout]
    rfl
  have hedge : ∀ edge, edge = none ∨ edge = some f.entry →
      edge = none ∨ ∃ f ∈ fs + gs, edge = some f.entry :=
    fun edge h => h.imp_right fun heq => ⟨f, hf, heq⟩
  cases greedy with
  | true =>
    have hemit : Turns (emit limit (.fork [some f.entry, none])) (fs + gs)
        fun pc => {.live pc (⟨pc, 1⟩ :: out)} + gs := by
      refine turns_emit (fun edge hmem => hedge edge ?_) (by simp [Instr.successors])
        (fun _ => .inl ?_) fun pc => hexits ⟨pc, 1⟩
      · simpa [Instr.successors, or_comm] using hmem
      · simp [Instr.successors]
    exact hemit.bind fun pc =>
      turns_pure (pc, (⟨pc, 1⟩ : Hole)) fun r => {.live r.1 (r.2 :: out)} + gs
  | false =>
    have hemit : Turns (emit limit (.fork [none, some f.entry])) (fs + gs)
        fun pc => {.live pc (⟨pc, 0⟩ :: out)} + gs := by
      refine turns_emit (fun edge hmem => hedge edge ?_) (by simp [Instr.successors])
        (fun _ => .inl ?_) fun pc => hexits ⟨pc, 0⟩
      · simpa [Instr.successors] using hmem
      · simp [Instr.successors]
    exact hemit.bind fun pc =>
      turns_pure (pc, (⟨pc, 0⟩ : Hole)) fun r => {.live r.1 (r.2 :: out)} + gs

theorem turns_optional {greedy : Bool} : Turns (optional limit greedy f) {f} fun h => {h} := by
  have hbranch : Turns (branch limit greedy f) ({f} + 0)
      fun r => {.live r.1 (r.2 :: f.exits)} + 0 :=
    turns_branch (by simp) (by simp)
  exact hbranch.bind fun r => turns_pure (Fragment.live r.1 (r.2 :: f.exits)) fun h => {h}

/-- The fork of a loop, before the body leads back to it. -/
theorem turns_branch_loop {greedy : Bool} :
    Turns (branch limit greedy f) {f} fun r => {f} + {.live r.1 [r.2]} := by
  have hbranch : Turns (branch limit greedy f) (0 + {f}) fun r => {.live r.1 [r.2]} + {f} :=
    turns_branch (by simp) (by simp)
  simp only [zero_add] at hbranch
  simp only [add_comm {f}]
  exact hbranch

/-- A loop that is entered at its fork. -/
theorem turns_star {greedy : Bool} : Turns (star limit greedy f) {f} fun h => {h} :=
  turns_branch_loop.bind fun r => (turns_link_into (g := .live r.1 [r.2])).bind
    fun _ => turns_pure (Fragment.live r.1 [r.2]) fun h => {h}

/-- A loop that is entered at its body. -/
theorem turns_star_body {greedy : Bool} :
    Turns (star limit greedy f) {f} fun h => {.live f.entry h.exits} :=
  turns_branch_loop.bind fun r => (turns_link_through (g := .live r.1 [r.2])).bind
    fun _ => turns_pure (Fragment.live r.1 [r.2]) fun h => {.live f.entry h.exits}

theorem turns_plus {greedy : Bool} : Turns (plus limit greedy f) {f} fun h => {h} := by
  cases f with
  | never => exact turns_pure Fragment.never fun h => {h}
  | live entry exits =>
    exact turns_star_body.bind fun loop =>
      turns_pure (Fragment.live entry loop.exits) fun h => {h}

/-! ## Copies -/

variable {copy : Assembly Fragment}

/-- What is made of nothing can be made beside another fragment. -/
theorem Turns.beside {act : Assembly Fragment} (h : Turns act 0 fun g => {g}) (f : Fragment) :
    Turns act {f} fun g => {f} + {g} := by
  have hframe := h.frame {f}
  rw [zero_add] at hframe
  simp only [add_comm {f}]
  exact hframe

theorem turns_joinCopies (hcopy : Turns copy 0 fun f => {f}) (count : Nat) {f : Fragment} :
    Turns (joinCopies copy count f) {f} fun h => {h} := by
  induction count generalizing f with
  | zero => exact turns_pure f fun h => {h}
  | succ count ih => exact (hcopy.beside f).bind fun next => turns_join.bind fun joined => ih

/-- The fragments that are there if there is an inner one. -/
def owned (inner : Option Fragment) : Multiset Fragment := inner.elim 0 fun f => {f}

theorem turns_nestCopies {greedy : Bool} (hcopy : Turns copy 0 fun f => {f}) (count : Nat)
    {inner : Option Fragment} :
    Turns (nestCopies limit greedy copy count inner) (owned inner) owned := by
  induction count generalizing inner with
  | zero => exact turns_pure inner owned
  | succ count ih =>
    have hrest : ∀ body : Fragment, Turns (do
        nestCopies limit greedy copy count (some (← optional limit greedy body))) {body} owned :=
      fun body => turns_optional.bind fun outer => (ih : Turns _ (owned (some outer)) owned)
    cases inner with
    | none => exact hcopy.bind fun outer => hrest outer
    | some inner =>
      refine (hcopy.beside inner).bind fun outer => ?_
      rw [add_comm]
      exact turns_join.bind fun body => hrest body

theorem turns_checkBounds (min : Nat) (max : Option Nat) :
    Turns (checkBounds min max) fs fun _ => fs := by
  have hmin : Turns (if Expr.maxRepeat < min then throw (.repeatTooLarge min) else pure ()) fs
      fun _ => fs := by
    split
    · exact turns_throw rfl
    · exact turns_pure () fun _ => fs
  unfold checkBounds
  cases max with
  | none => exact hmin
  | some max =>
    dsimp only
    split
    · exact turns_throw rfl
    · split
      · exact turns_throw rfl
      · exact hmin

theorem turns_times (hcopy : Turns copy 0 fun f => {f}) (min : Nat) (max : Option Nat)
    (greedy : Bool) : Turns (times limit copy min max greedy) 0 fun f => {f} := by
  unfold times
  refine (turns_checkBounds min max).bind fun _ => ?_
  cases max with
  | none =>
    cases min with
    | zero => exact hcopy.bind fun body => turns_star
    | succ min =>
      refine (turns_single rfl).bind fun first => (turns_joinCopies hcopy min).bind fun front => ?_
      refine (hcopy.beside front).bind fun last => ?_
      have hplus : Turns (plus limit greedy last) {last} fun loop => {loop} := turns_plus
      have hloop := hplus.frame {front}
      simp only [add_comm _ {front}] at hloop
      exact hloop.bind fun loop => turns_join
  | some max =>
    refine (turns_single rfl).bind fun first => (turns_joinCopies hcopy min).bind fun front => ?_
    have hnest : Turns (nestCopies limit greedy copy (max - min) none) {front}
        fun rest => {front} + owned rest := by
      have hnone : Turns (nestCopies limit greedy copy (max - min) none) 0 owned :=
        turns_nestCopies hcopy (max - min)
      have hframe := hnone.frame {front}
      rw [zero_add] at hframe
      simp only [add_comm {front}]
      exact hframe
    refine hnest.bind fun rest => ?_
    cases rest with
    | none => exact turns_pure front fun h => {h}
    | some rest => exact turns_join

end Assembly

/-! ## Expressions -/

namespace Expr

open Assembly

variable {limit : Nat}

theorem turns_assembleText (chars : List Char) {f : Fragment} :
    Turns (assembleText limit f chars) {f} fun h => {h} := by
  induction chars generalizing f with
  | nil => exact turns_pure f fun h => {h}
  | cons c rest ih =>
    have hliteral : Turns (Assembly.literal limit c false) 0 fun h => {h} := turns_single rfl
    exact (hliteral.beside f).bind fun next => turns_join.bind fun joined => ih

mutual

/-- **The fragment of an expression** is made of nothing. -/
theorem turns_assemble : ∀ e : Expr, Turns (assemble limit e) 0 fun f => {f}
  | empty => turns_single rfl
  | never => turns_never
  | literal _ _ => turns_single rfl
  | text [] => turns_single rfl
  | text (_ :: rest) => Turns.bind (turns_single rfl) fun _ => turns_assembleText rest
  | oneOf _ => turns_oneOf
  | noneOf _ => turns_oneOf
  | any => turns_single rfl
  | anyButNewline => turns_single rfl
  | assert _ => turns_single rfl
  | concat [] => turns_single rfl
  | concat (e :: rest) => (turns_assemble e).bind fun _ => turns_assembleConcat rest
  | alternate [] => turns_never
  | alternate (e :: rest) => (turns_assemble e).bind fun _ => turns_assembleAlternate rest
  | star body _ => (turns_assemble body).bind fun _ => turns_star
  | plus body _ => (turns_assemble body).bind fun _ => turns_plus
  | optional body _ => (turns_assemble body).bind fun _ => turns_optional
  | times body min max greedy => turns_times (turns_assemble body) min max greedy
  | capture index body => by
    by_cases hindex : index = 0
    · rw [assemble, if_pos hindex]
      exact turns_throw rfl
    rw [assemble, if_neg hindex]
    refine (turns_single rfl).bind fun opening => ?_
    refine ((turns_assemble body).beside opening).bind fun inside => ?_
    -- the closing is made while the two others wait to be joined
    have hclosing : Turns (single limit (.save (2 * index.toNat + 1) none))
        (0 + ({opening} + {inside})) fun closing => {closing} + ({opening} + {inside}) :=
      (turns_single rfl).frame _
    rw [zero_add] at hclosing
    refine hclosing.bind fun closing => ?_
    have hfirst : Turns (join opening inside) ({opening} + {inside} + {closing})
        fun first => {first} + {closing} := turns_join.frame {closing}
    rw [add_comm]
    exact hfirst.bind fun first => turns_join

theorem turns_assembleConcat : ∀ (es : List Expr) {f : Fragment},
    Turns (assembleConcat limit f es) {f} fun h => {h}
  | [], f => turns_pure f fun h => {h}
  | e :: rest, f => ((turns_assemble e).beside f).bind fun _ => turns_join.bind fun _ =>
      turns_assembleConcat rest

theorem turns_assembleAlternate : ∀ (es : List Expr) {f : Fragment},
    Turns (assembleAlternate limit f es) {f} fun h => {h}
  | [], f => turns_pure f fun h => {h}
  | e :: rest, f => ((turns_assemble e).beside f).bind fun _ => turns_choose.bind fun _ =>
      turns_assembleAlternate rest

end

end Expr

/-! ## Programs that are ready to be finished -/

namespace Builder

/-- Nothing is owed any more: the program starts inside itself and fails at the address 0; each open
edge has a link, and no edge has two; all edges lead into the program; and from everywhere there is
a way to an instruction that ends a thread. -/
structure Complete (b : Builder) : Prop extends b.Owes 0 where
  start : b.start < b.code.size

/-- Each open edge has one link, and other edges have none. -/
theorem Complete.links {b : Builder} (h : b.Complete) :
    (b.links.toList.map Prod.fst).Nodup ∧
      ∀ hole, hole ∈ b.links.toList.map Prod.fst ↔ hole.IsOpenIn b.code := by
  have hnodup := h.nodup
  have hmem := h.mem_iff
  simp only [add_zero] at hnodup hmem
  exact ⟨hnodup, hmem⟩

end Builder

namespace Expr

open Assembly Builder

/-- A whole program: the fragment of the expression leads to `accept`, and to nothing else. Gives
the address where it is entered. -/
theorem turns_whole (limit : Nat) (e : Expr) : Turns (do
    let body ← assemble limit e
    let accepting ← emit limit .accept
    link body.exits accepting
    return body.entry) 0 fun entry => {.live entry []} := by
  refine (turns_assemble e).bind fun body => ?_
  have haccept : Turns (emit limit .accept) (0 + {body}) fun pc => {.live pc []} + {body} :=
    turns_emit (by simp [Instr.successors]) (fun _ => rfl) (fun h => absurd rfl h) fun _ => rfl
  rw [zero_add] at haccept
  simp only [add_comm _ {body}] at haccept
  exact haccept.bind fun pc => (turns_link_through (g := .live pc [])).bind
    fun _ => turns_pure body.entry fun entry => {.live entry []}

/-- **What is built is complete**, and if nothing is built, the fault is not in the program. -/
theorem complete_build (limit : Nat) (e : Expr) :
    (∀ error, e.build limit = .error error → error.isInternal = false) ∧
      ∀ b, e.build limit = .ok b → b.Complete := by
  let entered : Assembly Nat := do
    let body ← assemble limit e
    let accepting ← emit limit .accept
    link body.exits accepting
    return body.entry
  have hbuild : e.build limit =
      (entered { code := #[.fail] }).map fun r => r.2.startAt r.1 := by
    have hwhole : (do
        let body ← assemble limit e
        let accepting ← emit limit .accept
        link body.exits accepting
        startAt body.entry) = entered >>= startAt := by
      simp only [entered, bind_assoc, pure_bind]
    unfold build
    rw [hwhole]
    show ((entered { code := #[.fail] } >>= fun r => startAt r.1 r.2) >>= fun r => pure r.2) = _
    cases entered { code := #[.fail] } <;> rfl
  have hroot : Builder.Carries { code := #[.fail] } (0 + 0) :=
    ⟨owes_root, fun f hf => absurd hf (Multiset.notMem_zero f)⟩
  obtain ⟨herror, hok⟩ := turns_whole limit e _ 0 hroot
  rw [hbuild]
  cases hentered : entered { code := #[.fail] } with
  | error error =>
    refine ⟨?_, nofun⟩
    rintro _ ⟨⟩
    exact herror error hentered
  | ok r =>
    obtain ⟨entry, b⟩ := r
    refine ⟨nofun, ?_⟩
    rintro _ ⟨⟩
    obtain ⟨howes, henters⟩ := hok entry b hentered
    have howes : b.Owes 0 := by simpa [Fragment.exits] using howes
    exact ⟨howes.startAt entry, (henters (.live entry []) (by simp)).1⟩

end Expr

end Lockstep
