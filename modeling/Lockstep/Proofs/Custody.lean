import Lockstep.Proofs.Budget
import Mathlib.Data.Multiset.Range

/-!
# No buffer is lost

A buffer leaves the pool when a thread is started, or when a thread is added with a copy of the
slots that a closure carries. It comes back when its thread is given up, ends a match, loses against
another one or does not read the symbol, when a closure ends without a last thread, and when a
search ends. Throughout, each buffer that the pool has made is in one place: in the pool, with one
thread, or carried by a closure.

- `Pool.Accounts`: the buffers that are out, and what taking and giving back does to them.
- `Program.stopCount`: how many threads can wait at one offset.
- `Closure.Accounts`, `Sweep.Accounts`, `Workspace.Accounts`: the invariant of each part, with what
  one step leaves of it.
- `Search.Passes.accounts`: it holds at every stage.
- `Custody`: where the buffers are.
- `Machine.custody_exact`: each buffer is in one place, whatever calls there are.
-/

namespace Lockstep

/-! ## Pools -/

/-- The serial numbers of the buffers that some threads hold. -/
def held {n : Nat} (threads : List (Thread n)) : Multiset Nat :=
  threads.map fun t => t.buffer.serial

section Held

variable {n : Nat} (t : Thread n) (ts us : List (Thread n))

@[simp] theorem held_nil : held ([] : List (Thread n)) = 0 := rfl

@[simp] theorem held_cons : held (t :: ts) = {t.buffer.serial} + held ts := rfl

@[simp] theorem held_append : held (ts ++ us) = held ts + held us := by
  rw [held, List.map_append]
  rfl

@[simp] theorem card_held : (held ts).card = ts.length :=
  (Multiset.coe_card _).trans (List.length_map _)

end Held

namespace Pool

/-- The buffers with the serial numbers `out` are out of the pool: together with those that are in
it, they are all that it has made, each of them once. There are no more than `bound`. -/
structure Accounts (pool : Pool) (out : Multiset Nat) (bound : Nat) : Prop where
  exact : (pool.free.map Buffer.serial : Multiset Nat) + out = Multiset.range pool.created
  created_le : pool.created ≤ bound

variable {pool : Pool} {out : Multiset Nat} {bound : Nat}

theorem accounts_empty (width bound : Nat) : (empty width).Accounts 0 bound :=
  ⟨rfl, Nat.zero_le bound⟩

/-- **Taking a buffer.** A new one is made only if all others are out. -/
theorem Accounts.take (h : pool.Accounts out bound) (hroom : out.card < bound) :
    pool.take.2.Accounts ({pool.take.1.serial} + out) bound := by
  have hexact := h.exact
  cases hfree : pool.free with
  | nil =>
    rw [hfree] at hexact
    have hall : out = Multiset.range pool.created := (zero_add out).symm.trans hexact
    have hcard : out.card = pool.created := by rw [hall, Multiset.card_range]
    simp only [Pool.take, hfree]
    constructor
    · show (0 : Multiset Nat) + ({pool.created} + out) = Multiset.range (pool.created + 1)
      rw [zero_add, Multiset.range_succ, hall, Multiset.singleton_add]
    · show pool.created + 1 ≤ bound
      omega
  | cons b free =>
    rw [hfree] at hexact
    simp only [Pool.take, hfree]
    refine ⟨?_, h.created_le⟩
    rw [← hexact, add_left_comm, ← add_assoc]
    rfl

/-- **Giving a buffer back.** -/
theorem Accounts.release {b : Buffer} (h : pool.Accounts ({b.serial} + out) bound) :
    (pool.release b).Accounts out bound := by
  have hfree : ((pool.release b).free.map Buffer.serial : Multiset Nat) =
      {b.serial} + (pool.free.map Buffer.serial : Multiset Nat) := rfl
  have hexact := h.exact
  rw [add_left_comm, ← add_assoc, ← hfree] at hexact
  exact ⟨hexact, h.created_le⟩

/-- Giving the buffers of several threads back. -/
theorem Accounts.foldl_release {n : Nat} {threads : List (Thread n)}
    (h : pool.Accounts (held threads + out) bound) :
    (threads.foldl (fun pool t => pool.release t.buffer) pool).Accounts out bound := by
  induction threads generalizing pool with
  | nil =>
    rw [held_nil, zero_add] at h
    exact h
  | cons t threads ih =>
    rw [held_cons, add_assoc] at h
    exact ih h.release

/-- Another width is the same buffers. -/
theorem Accounts.resize (h : pool.Accounts out bound) (width : Nat) :
    (pool.resize width).Accounts out bound := by
  unfold Pool.resize
  split
  · exact h
  · refine ⟨?_, h.created_le⟩
    rw [← h.exact, List.map_map]
    rfl

/-- If no buffer is out, all of them are in the pool. -/
theorem Accounts.available (h : pool.Accounts 0 bound) :
    (pool.free.map Buffer.serial).Perm (List.range pool.created) ∧
      pool.available = pool.created := by
  have hexact := h.exact
  rw [add_zero] at hexact
  have hperm : (pool.free.map Buffer.serial).Perm (List.range pool.created) :=
    Multiset.coe_eq_coe.mp hexact
  refine ⟨hperm, ?_⟩
  have hlen := hperm.length_eq
  rwa [List.length_map, List.length_range] at hlen

end Pool

/-! ## Threads -/

variable {P : Program}

/-- How many instructions of the program let threads wait. -/
def Program.stopCount (P : Program) : Nat :=
  (Finset.univ.filter fun pc => (P.instr pc).isStop = true).card

namespace RunList

variable {list : RunList P.size}

/-- No more threads wait than there are instructions that let them. -/
theorem Distinct.length_le_stopCount (h : list.Distinct) :
    list.threads.toList.length ≤ P.stopCount := by
  have hlen : list.view.length ≤ P.stopCount :=
    h.length_view_le_card fun e he => Finset.mem_filter.mpr ⟨Finset.mem_univ _, h.waits e he⟩
  rwa [view, List.length_map] at hlen

theorem Distinct.mark (h : list.Distinct) (pc : Fin P.size) : (list.mark pc).Distinct where
  nodup := h.nodup
  marked e he := by
    rw [seen_mark]
    exact Finset.mem_insert_of_mem (h.marked e he)
  waits := h.waits

/-- A thread is added where none waits. -/
theorem Distinct.push (h : list.Distinct) {t : Thread P.size} (hmark : list.isMarked t.pc = false)
    (hstop : (P.instr t.pc).isStop = true) : ((list.mark t.pc).push t).Distinct := by
  have hfresh : t.pc ∉ list.view.map Prod.fst := by
    intro hmem
    obtain ⟨e, he, heq⟩ := List.mem_map.mp hmem
    have hseen := h.marked e he
    rw [heq, mem_seen, hmark] at hseen
    cases hseen
  refine ⟨?_, fun e he => ?_, fun e he => ?_⟩
  · rw [view_push, view_mark, List.map_append, List.map_singleton, List.nodup_append_comm]
    exact List.nodup_cons.mpr ⟨hfresh, h.nodup⟩
  · rw [view_push, view_mark] at he
    rw [seen_push, seen_mark]
    rcases List.mem_append.mp he with he | he
    · exact Finset.mem_insert_of_mem (h.marked e he)
    · rw [List.mem_singleton.mp he]
      exact Finset.mem_insert_self _ _
  · rw [view_push, view_mark] at he
    rcases List.mem_append.mp he with he | he
    · exact h.waits e he
    · rw [List.mem_singleton.mp he]
      exact hstop

end RunList

/-! ## Closures -/

namespace Front

/-- Apart from the buffers with the serial numbers `others`, those that are out are held by the
threads of the run list, which wait at different addresses. -/
structure Accounts (front : Front P.size) (others : Multiset Nat) : Prop where
  list : front.list.Distinct
  pool : front.pool.Accounts (held front.list.threads.toList + others) (2 * P.stopCount + 1)

variable {front : Front P.size} {others : Multiset Nat}

theorem Accounts.visit (h : front.Accounts others) (pc : Fin P.size) :
    (front.visit pc).Accounts others :=
  ⟨h.list.mark pc, h.pool⟩

theorem Accounts.release {b : Buffer} (h : front.Accounts ({b.serial} + others)) :
    (front.release b).Accounts others := by
  refine ⟨h.list, Pool.Accounts.release ?_⟩
  rw [add_left_comm]
  exact h.pool

theorem Accounts.foldl_release {threads : List (Thread P.size)}
    (h : front.Accounts (held threads + others)) :
    (threads.foldl (fun front t => front.release t.buffer) front).Accounts others := by
  induction threads generalizing front with
  | nil =>
    rw [held_nil, zero_add] at h
    exact h
  | cons t threads ih =>
    rw [held_cons, add_assoc] at h
    exact ih h.release

/-- A thread takes over a buffer that was out. -/
theorem Accounts.push {b : Buffer} {pc : Fin P.size} (h : front.Accounts ({b.serial} + others))
    (hmark : front.list.isMarked pc = false) (hstop : (P.instr pc).isStop = true) :
    ((front.visit pc).push pc b).Accounts others := by
  refine ⟨h.list.push (t := ⟨pc, b⟩) hmark hstop, ?_⟩
  have hthreads : ((front.visit pc).push pc b).list.threads.toList =
      front.list.threads.toList ++ [⟨pc, b⟩] := Array.toList_push ..
  rw [hthreads, held_append, add_assoc]
  exact h.pool

/-- A thread is added with a buffer of its own. -/
theorem Accounts.pushCopy {pc : Fin P.size} (h : front.Accounts others)
    (hroom : others.card ≤ P.stopCount + 1) (hmark : front.list.isMarked pc = false)
    (hstop : (P.instr pc).isStop = true) (slots : Slots) :
    ((front.visit pc).pushCopy pc slots).Accounts others := by
  have hlist := h.list.push (t := ⟨pc, front.pool.take.1.fill slots⟩) hmark hstop
  have hthreads : ((front.visit pc).pushCopy pc slots).list.threads.toList =
      front.list.threads.toList ++ [⟨pc, front.pool.take.1.fill slots⟩] := Array.toList_push ..
  refine ⟨hlist, ?_⟩
  have hlen : ((front.visit pc).pushCopy pc slots).list.threads.toList.length ≤ P.stopCount :=
    hlist.length_le_stopCount
  have htake := h.pool.take (by
    rw [Multiset.card_add, card_held]
    rw [hthreads, List.length_append, List.length_singleton] at hlen
    omega)
  rw [hthreads, held_append, add_right_comm, add_comm]
  exact htake

end Front

namespace Closure

/-- Apart from the buffers with the serial numbers `others`, those that are out are held by the
threads of the run list, and one of them is carried. -/
def Accounts (c : Closure P.size) (others : Multiset Nat) : Prop :=
  c.front.Accounts ({c.snapshot.serial} + others)

variable {c : Closure P.size} {others : Multiset Nat} {pos : Nat} {cond : Conditions}

/-- **One thing done**: a visit takes a buffer only for a thread, and at the end the one that is
carried goes to the last thread or back to the pool. -/
theorem Accounts.step (h : c.Accounts others) (hroom : others.card ≤ P.stopCount) :
    (∀ c', c.step pos cond = .inl c' → c'.Accounts others) ∧
      ∀ front, c.step pos cond = .inr front → front.Accounts others := by
  constructor
  · intro c' hstep
    have hsteps : Steps pos cond c (.inl c') := hstep ▸ steps_step c
    cases hsteps with
    | restore | skip => exact h
    | pass | save => exact Front.Accounts.visit h _
    | wait hmark hstop =>
      refine Front.Accounts.pushCopy h ?_ hmark hstop _
      rw [Multiset.card_add, Multiset.card_singleton]
      omega
  · intro front hstep
    have hsteps : Steps pos cond c (.inr front) := hstep ▸ steps_step c
    cases hsteps with
    | done => exact Front.Accounts.release h
    | last hmark hstop => exact Front.Accounts.push h hmark hstop

theorem Accounts.run (h : c.Accounts others) (hroom : others.card ≤ P.stopCount) :
    (c.run pos cond).Accounts others := by
  induction c using Closure.run.induct pos cond with
  | case1 c c' hstep ih =>
    rw [run_of_step_inl hstep]
    exact ih ((h.step hroom).1 c' hstep)
  | case2 c front hstep =>
    rw [run_of_step_inr hstep]
    exact (h.step hroom).2 front hstep

/-- When a closure ends, nothing is left to be done but the last thing. -/
theorem tail_todo_of_step {front : Front P.size} (h : c.step pos cond = .inr front) :
    c.todo.tail = [] := by
  have hsteps : Steps pos cond c (.inr front) := h ▸ steps_step c
  cases hsteps with
  | done | last => rfl

end Closure

/-! ## Sweeps -/

namespace Sweep

variable {m : Moment} {s s' : Sweep P.size}

/-- The buffers that are out are held by the threads that have not been taken up, and by those that
wait for the next offset. -/
structure Accounts (s : Sweep P.size) : Prop where
  pending : s.pending.length ≤ P.stopCount
  front : s.front.Accounts (held s.pending)

/-- **One thread taken up**: its buffer goes back to the pool, or into the closure of what it
reads. -/
theorem Accounts.take {t : Thread P.size} (hpending : s.pending.length ≤ P.stopCount)
    (hfront : s.front.Accounts ({t.buffer.serial} + held s.pending)) (htake : s.take m t = .ok s') :
    s'.Accounts := by
  obtain ⟨pending, front, v⟩ := s
  -- counting the thread moves no buffer
  have hcounted : Front.Accounts (P := P) { front with work := front.work + 1 }
      ({t.buffer.serial} + held pending) := ⟨hfront.list, hfront.pool⟩
  have hdrop : (Front.release { front with work := front.work + 1 } t.buffer).Accounts
      (P := P) (held pending) := hcounted.release
  cases takes_of_take htake with
  | abandon | early | miss | longest => exact ⟨hpending, hdrop⟩
  | first =>
    refine ⟨Nat.zero_le _, Front.Accounts.foldl_release ?_⟩
    rw [held_nil, add_zero]
    exact hdrop
  | read =>
    refine ⟨hpending, Closure.Accounts.run hcounted ?_⟩
    rw [card_held]
    exact hpending

theorem Accounts.step (h : s.Accounts) (hstep : s.step m = .ok s') : s'.Accounts := by
  obtain ⟨pending, front, v⟩ := s
  cases pending with
  | nil =>
    cases hstep
    exact h
  | cons t rest =>
    exact Accounts.take (s := ⟨rest, front, v⟩) (Nat.le_of_succ_le h.pending) h.front hstep

/-- After a sweep no thread is left to be taken up. -/
theorem Accounts.run (h : s.Accounts) (hrun : Sweep.run m s = .ok s') :
    s'.Accounts ∧ s'.pending = [] := by
  induction s using Sweep.run.induct m with
  | case1 s hnil =>
    rw [run_of_pending_eq_nil hnil] at hrun
    cases hrun
    exact ⟨h, hnil⟩
  | case2 s hne s₁ hstep ih =>
    rw [run_of_step hne, hstep] at hrun
    exact ih (h.step hstep) hrun
  | case3 s hne flaw hstep =>
    rw [run_of_step hne, hstep] at hrun
    cases hrun

end Sweep

/-! ## Searches -/

namespace Workspace

/-- The buffers that are out are held by the threads of the two run lists. -/
structure Accounts (w : Workspace P.size) : Prop where
  current : w.current.Distinct
  next : w.next.Distinct
  pool : w.pool.Accounts (held w.current.threads.toList + held w.next.threads.toList)
    (2 * P.stopCount + 1)

variable {w : Workspace P.size}

theorem Accounts.swap (h : w.Accounts) :
    Accounts (P := P) { w with current := w.next, next := w.current } where
  current := h.next
  next := h.current
  pool := by
    show w.pool.Accounts (held w.next.threads.toList + held w.current.threads.toList) _
    rw [add_comm]
    exact h.pool

/-- **The end of a search**: all buffers go back to the pool. -/
theorem Accounts.drain (h : w.Accounts) : w.drain.pool.Accounts 0 (2 * P.stopCount + 1) := by
  refine Pool.Accounts.foldl_release ?_
  rw [add_zero, held_append]
  exact h.pool

end Workspace

/-- The invariant at the end of a search. -/
def Ending.Accounts : Ending P.size → Prop
  | .settled w | .overrun w => w.Accounts
  | .flawed _ => True

namespace Search

variable {q : Query} {s : Search P.size}

theorem accounts_aim (h : s.space.Accounts) {aimed : Search P.size} (haim : s.aim q = some aimed) :
    aimed.space.Accounts := by
  rw [space_of_aim haim]
  exact h

/-- A new thread takes a buffer; there are at most as many out as threads can wait at two
offsets. -/
theorem accounts_seeding (h : s.space.Accounts) :
    s.seeding.Accounts (held s.space.next.threads.toList) := by
  have hcurrent := h.current.length_le_stopCount
  have hnext := h.next.length_le_stopCount
  have htake := h.pool.take (by
    rw [Multiset.card_add, card_held, card_held]
    omega)
  rw [add_left_comm] at htake
  exact ⟨h.current, htake⟩

theorem accounts_seed (h : s.space.Accounts) : (s.seed q).space.Accounts := by
  by_cases hmay : s.space.verdict.found = false ∧ q.mayStart s.pos = true
  · have hroom : (held s.space.next.threads.toList).card ≤ P.stopCount := by
      rw [card_held]
      exact h.next.length_le_stopCount
    have hfront : (s.seeding.run s.pos (q.input.text.context s.pos)).Accounts
        (held s.space.next.threads.toList) := (accounts_seeding h).run hroom
    rw [seed_of_may hmay]
    exact ⟨hfront.list, h.next, hfront.pool⟩
  · rw [seed_of_not_may hmay]
    exact h

theorem accounts_sweeping (h : s.space.Accounts) : s.sweeping.Accounts where
  pending := h.current.length_le_stopCount
  front := ⟨h.next, by
    rw [add_comm]
    exact h.pool⟩

theorem accounts_sweep {space : Workspace P.size} (h : s.space.Accounts)
    (hsweep : s.sweep q = .ok space) : space.Accounts := by
  obtain ⟨swept, hrun, rfl⟩ := exists_run_of_sweep hsweep
  obtain ⟨hswept, hnil⟩ := (accounts_sweeping h).run hrun
  have hpool := hswept.front.pool
  rw [hnil, add_comm] at hpool
  exact ⟨RunList.distinct_empty P, hswept.front.list, hpool⟩

/-- Going through one offset: the run lists change places, and no buffer is lost. -/
theorem accounts_step (h : s.space.Accounts) :
    (∀ s', s.step q = .inl s' → s'.space.Accounts) ∧
      ∀ e, s.step q = .inr e → e.Accounts := by
  have hswept : ∀ {aimed : Search P.size} {space : Workspace P.size}, s.aim q = some aimed →
      (aimed.seed q).sweep q = .ok space → space.Accounts :=
    fun haim hsweep => accounts_sweep (accounts_seed (accounts_aim h haim)) hsweep
  have hsteps := steps_step q s
  constructor
  · intro s' hstep
    rw [hstep] at hsteps
    cases hsteps with
    | go haim hsweep => exact (hswept haim hsweep).swap
  · intro e hstep
    rw [hstep] at hsteps
    cases hsteps with
    | rest => exact h
    | flaw => trivial
    | settle haim hsweep | overrun haim hsweep => exact hswept haim hsweep

end Search

/-! ## All stages -/

/-- The invariant of a search, wherever it is. -/
def Stage.Accounts : Stage P.size → Prop
  | .searching s => s.space.Accounts
  | .closing others _ _ c => others.length ≤ P.stopCount ∧ c.Accounts (held others)
  | .sweeping _ s => s.Accounts
  | .ended e => e.Accounts

/-- **Every stage** that a search passes through keeps the invariant. -/
theorem Search.Passes.accounts {q : Query} {s₀ : Search P.size} (h₀ : s₀.space.Accounts)
    {stage : Stage P.size} (h : Search.Passes q s₀ stage) : stage.Accounts := by
  induction h with
  | start => exact h₀
  | next _ hstep ih => exact (accounts_step ih).1 _ hstep
  | ended _ hstep ih => exact (accounts_step ih).2 _ hstep
  | seed _ haim _ ih =>
    have haimed := accounts_aim ih haim
    exact ⟨haimed.next.length_le_stopCount, accounts_seeding haimed⟩
  | sweep _ haim ih => exact accounts_sweeping (accounts_seed (accounts_aim ih haim))
  | take _ hstep ih => exact Sweep.Accounts.step ih hstep
  | @read m t rest front v cls pc _ _ _ _ ih =>
    obtain ⟨hpending, hfront⟩ := ih
    exact ⟨Nat.le_of_succ_le hpending, hfront.list, hfront.pool⟩
  | follow _ hstep ih => exact ⟨ih.1, (ih.2.step (by rw [card_held]; exact ih.1)).1 _ hstep⟩

/-! ## Where the buffers are -/

/-- Where the buffers are: in the pool, with threads, and one may be carried. -/
structure Custody (n : Nat) where
  /-- The pool. -/
  pool : Pool
  /-- The threads, in the order in which they give their buffers back. -/
  threads : List (Thread n)
  /-- The buffer that a closure carries. -/
  carried : Option Buffer

namespace Custody

variable {n : Nat}

/-- The serial numbers of all buffers. -/
def serials (c : Custody n) : List Nat :=
  (c.pool.free ++ c.threads.map Thread.buffer ++ c.carried.toList).map Buffer.serial

/-- Each buffer that the pool has made is in one place. -/
def Exact (c : Custody n) : Prop := c.serials.Perm (List.range c.pool.created)

/-- After some of the threads have given their buffers back, one after the other, as they do when a
search ends, and when they lose against a match. -/
def giveBack (c : Custody n) (count : Nat) : Custody n where
  pool := (c.threads.take count).foldl (fun pool t => pool.release t.buffer) c.pool
  threads := c.threads.drop count
  carried := c.carried

/-- The serial numbers of the buffers that are out. -/
def out (c : Custody n) : Multiset Nat :=
  held c.threads + (c.carried.toList.map Buffer.serial : Multiset Nat)

theorem exact_of_accounts {c : Custody n} {bound : Nat} (h : c.pool.Accounts c.out bound) :
    c.Exact := by
  refine Multiset.coe_eq_coe.mp (Eq.trans ?_ h.exact)
  rw [serials, List.map_append, List.map_append, List.map_map, List.append_assoc]
  rfl

theorem accounts_giveBack {c : Custody n} {bound : Nat} (h : c.pool.Accounts c.out bound)
    (count : Nat) : (c.giveBack count).pool.Accounts (c.giveBack count).out bound := by
  refine Pool.Accounts.foldl_release ?_
  rw [out, ← add_assoc, ← held_append]
  show c.pool.Accounts (held (c.threads.take count ++ c.threads.drop count) + _) bound
  rw [List.take_append_drop]
  exact h

end Custody

/-- Where the buffers are at a stage. A search that ends because of a thread that does not wait is
no such stage. -/
def Stage.custody {n : Nat} : Stage n → Option (Custody n)
  | .searching s =>
    some ⟨s.space.pool, s.space.current.threads.toList ++ s.space.next.threads.toList, none⟩
  | .closing others _ _ c =>
    some ⟨c.front.pool, others ++ c.front.list.threads.toList, some c.snapshot⟩
  | .sweeping _ s => some ⟨s.front.pool, s.pending ++ s.front.list.threads.toList, none⟩
  | .ended (.settled w) | .ended (.overrun w) =>
    some ⟨w.pool, w.current.threads.toList ++ w.next.threads.toList, none⟩
  | .ended (.flawed _) => none

theorem Stage.exists_custody {stage : Stage P.size} {width : Nat} (hfits : stage.Fits width)
    (h : stage.Accounts) :
    ∃ c, stage.custody = some c ∧ c.pool.Accounts c.out (2 * P.stopCount + 1) := by
  match stage with
  | .searching s =>
    refine ⟨_, rfl, ?_⟩
    have hpool := h.pool
    rwa [← held_append, ← add_zero (held _)] at hpool
  | .closing others _ _ c =>
    refine ⟨_, rfl, ?_⟩
    have hpool := h.2.pool
    rwa [add_left_comm, add_comm, add_comm (held _) (held others), ← held_append] at hpool
  | .sweeping _ s =>
    refine ⟨_, rfl, ?_⟩
    have hpool := h.front.pool
    rwa [add_comm, ← held_append, ← add_zero (held _)] at hpool
  | .ended (.settled w) | .ended (.overrun w) =>
    refine ⟨_, rfl, ?_⟩
    have hpool := Workspace.Accounts.pool h
    rwa [← held_append, ← add_zero (held _)] at hpool
  | .ended (.flawed _) => exact hfits.elim

/-! ## Machines -/

namespace Machine

/-- The workspace with which a run begins. -/
theorem Idle.accounts_reset {m : Machine P} (h : m.Idle)
    (hpool : m.space.pool.Accounts 0 (2 * P.stopCount + 1)) :
    (m.space.reset m.width).Accounts := by
  have hcurrent : (m.space.reset m.width).current = RunList.empty P.size := h.current
  have hnext : (m.space.reset m.width).next = RunList.empty P.size := h.next
  constructor
  · rw [hcurrent]
    exact RunList.distinct_empty P
  · rw [hnext]
    exact RunList.distinct_empty P
  · rw [hcurrent, hnext]
    exact hpool

/-- **Between two calls** all buffers are in the pool. -/
theorem Reachable.accounts {m : Machine P} (h : m.Reachable) :
    m.space.pool.Accounts 0 (2 * P.stopCount + 1) := by
  induction h with
  | new kind => exact Pool.accounts_empty _ _
  | @track m _ count ih =>
    unfold Machine.track
    simp only
    split
    · exact ih
    · exact ih.resize _
  | setLimit _ limit ih => exact ih
  | @tryMatch m hm env input pos anchor ih =>
    rcases m.tryMatch_cases env input pos anchor with hno | ⟨entry, hrun⟩
    · rw [hno]
      exact ih
    · have hended : (Search.run (m.query env input anchor entry)
          ⟨pos, 0, m.space.reset m.width⟩).Accounts :=
        (Search.Passes.start.run).accounts (hm.idle.accounts_reset ih)
      rw [hrun]
      unfold conclude
      split
      · next space hsettled =>
        rw [hsettled] at hended
        exact Workspace.Accounts.drain hended
      · next space hoverrun =>
        rw [hoverrun] at hended
        exact Workspace.Accounts.drain hended
      · exact Pool.accounts_empty _ _

/-- **No buffer is lost or used twice.** Whatever the program, and whatever calls came before:
between two calls the run lists have no threads and no marks, and the buffers in the pool are all
that it has made. At every stage of a run, also while threads give their buffers back one after the
other, each buffer that the pool has made is in one place: in the pool, with one thread, or carried
by a closure; and when a closure ends, nothing is left to be done. There are never more buffers
than threads can wait at two offsets, and one. -/
theorem custody_exact {m : Machine P} (h : m.Reachable) :
    (m.space.current = RunList.empty P.size ∧ m.space.next = RunList.empty P.size ∧
      (m.space.pool.free.map Buffer.serial).Perm (List.range m.space.pool.created) ∧
      m.space.pool.available = m.space.pool.created ∧
      m.space.pool.created ≤ 2 * P.stopCount + 1) ∧
    (∀ env input pos anchor stage, m.Passes env input pos anchor stage →
      ∃ c, stage.custody = some c ∧ ∀ count, (c.giveBack count).Exact ∧
        (c.giveBack count).pool.created ≤ 2 * P.stopCount + 1) ∧
    ∀ (c : Closure P.size) pos cond front, c.step pos cond = .inr front → c.todo.tail = [] := by
  have hpool := h.accounts
  obtain ⟨hperm, havailable⟩ := hpool.available
  refine ⟨⟨h.idle.current, h.idle.next, hperm, havailable, hpool.created_le⟩, ?_,
    fun c pos cond front => Closure.tail_todo_of_step⟩
  rintro env input pos anchor stage ⟨entry, -, hpasses⟩
  have hfits : stage.Fits m.width :=
    hpasses.fits (q := m.query env input anchor entry) h.idle.fits_reset
  have haccounts : stage.Accounts := hpasses.accounts (h.idle.accounts_reset hpool)
  obtain ⟨c, hcustody, hc⟩ := Stage.exists_custody hfits haccounts
  refine ⟨c, hcustody, fun count => ?_⟩
  have hback := Custody.accounts_giveBack hc count
  exact ⟨Custody.exact_of_accounts hback, hback.created_le⟩

/-- A letter in a group that is read again and again. The time of the run before was up, and then the
machine was told to keep fewer slots. -/
theorem custody_exact_letters :
    let P : Program := ⟨6, #v[.fork [1, 4], .save 2 2, .consume (.single 0x61) 3, .save 3 0,
      .accept, .fail], 0⟩
    let input : Input := { text := .utf16 (Array.replicate 600 0x61) }
    let hurried := (Machine.new P .leftmostLongest).setLimit (some 0)
    let m := ((hurried.tryMatch {} input 0 .start).2.setLimit none).track 2
    m.Reachable ∧ P.stopCount = 2 ∧
      (m.space.current = RunList.empty P.size ∧ m.space.next = RunList.empty P.size ∧
        (m.space.pool.free.map Buffer.serial).Perm (List.range m.space.pool.created) ∧
        m.space.pool.available = m.space.pool.created ∧
        m.space.pool.created ≤ 2 * P.stopCount + 1) ∧
      (∀ env input pos anchor stage, m.Passes env input pos anchor stage →
        ∃ c, stage.custody = some c ∧ ∀ count, (c.giveBack count).Exact ∧
          (c.giveBack count).pool.created ≤ 2 * P.stopCount + 1) ∧
      ∀ (c : Closure P.size) pos cond front,
        c.step pos cond = .inr front → c.todo.tail = [] := by
  intro P input hurried m
  have h : m.Reachable :=
    .track (.setLimit (.tryMatch (.setLimit (.new _) (some 0)) {} input 0 .start) none) 2
  exact ⟨h, by decide, custody_exact h⟩

end Machine

end Lockstep
