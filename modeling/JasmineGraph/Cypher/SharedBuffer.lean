import JasmineGraph.Schedule

/-!
# The bounded buffer between operators

`SharedBuffer::add` waits until the buffer has room, `SharedBuffer::get` until it has an item. Both
wait on the one condition variable `cv`, and both end with `notify_one`, which wakes any one of the
threads that wait there, whether or not it can go on.

* A step is one critical section. A thread that finds its predicate false joins `waiting`, the set
  of threads at the condition variable; otherwise it adds or takes an item and wakes one waiter,
  which the label names (none exactly if nobody waits). A woken thread tests its predicate again.
* Any number of producers each add a list of items. One consumer gets as many items as there are.

A wake-up is lost when a producer wakes another producer while the consumer waits. The buffer was
then empty, so the producers that have slept since it was full can fill it again without a wake-up
for the consumer, if enough of them are awake (`capacity`) and enough still sleep (`capacity`).
-/

namespace JasmineGraph.Cypher.SharedBuffer

open JasmineGraph.Schedule List Finset Function Nat

inductive Thread (n : Nat)
  | producer (i : Fin n)
  | consumer
deriving DecidableEq, Fintype

/-- The buffer with its condition variable, the items each producer still adds, the number of items
the consumer still gets, and those it has got. -/
structure State (n : Nat) (α : Type*) where
  buffer : List α
  waiting : Finset (Thread n)
  toAdd : Fin n → List α
  toGet : Nat
  received : List α

/-- The thread that enters its critical section, and the waiter its `notify_one` wakes. -/
structure Label (n : Nat) where
  thread : Thread n
  woken : Option (Thread n)

variable {n : Nat} {α : Type*}

def notifyOne (waiting : Finset (Thread n)) : Option (Thread n) → Option (Finset (Thread n))
  | none => if waiting = ∅ then some ∅ else none
  | some t => if t ∈ waiting then some (waiting.erase t) else none

/-- `SharedBuffer::add(data)` by a producer. -/
def add (capacity : Nat) (i : Fin n) (woken : Option (Thread n)) (s : State n α) :
    Option (State n α) :=
  match s.toAdd i with
  | [] => none
  | data :: rest =>
    if s.buffer.length < capacity then
      (notifyOne s.waiting woken).map fun waiting =>
        { s with
          buffer := s.buffer ++ [data]
          waiting := waiting
          toAdd := update s.toAdd i rest }
    else
      some { s with waiting := insert (.producer i) s.waiting }

def get (woken : Option (Thread n)) (s : State n α) : Option (State n α) :=
  match s.toGet with
  | 0 => none
  | toGet + 1 =>
    match s.buffer with
    | [] => some { s with waiting := insert .consumer s.waiting }
    | data :: rest =>
      (notifyOne s.waiting woken).map fun waiting =>
        { s with
          buffer := rest
          waiting := waiting
          toGet := toGet
          received := s.received ++ [data] }

def step (capacity : Nat) (l : Label n) (s : State n α) : Option (State n α) :=
  if l.thread ∈ s.waiting then none
  else
    match l.thread with
    | .producer i => add capacity i l.woken s
    | .consumer => get l.woken s

/-- The producers that have an item to add. -/
def producers (items : Fin n → List α) : Finset (Fin n) :=
  univ.filter fun i => items i ≠ []

/-- The number of items. -/
def total (items : Fin n → List α) : Nat := ∑ i, (items i).length

/-- The start: an empty buffer, nobody waits. -/
def start (items : Fin n → List α) : State n α := ⟨[], ∅, items, total items, []⟩

def Unfinished (s : State n α) : Thread n → Prop
  | .producer i => s.toAdd i ≠ []
  | .consumer => s.toGet ≠ 0

/-- All threads that have not finished sleep, and no wake-up is on its way. -/
def Stuck (s : State n α) : Prop :=
  (∃ t, Unfinished s t) ∧ ∀ t, Unfinished s t → t ∈ s.waiting

def Interleaves (parts : Fin n → List α) (l : List α) : Prop :=
  ∃ tagged : List (Fin n × α), tagged.map Prod.snd = l ∧
    ∀ i, (tagged.filter fun x => x.1 = i).map Prod.snd = parts i

/-- What is asked of the buffer: no deadlock is reachable, no run goes on for ever, what the consumer
has got is at every moment an interleaving of what producers added first, and where a run ends it
is an interleaving of all their items. -/
structure Delivers (capacity : Nat) (items : Fin n → List α) : Prop where
  deadlockFree : ∀ ls s, run (step capacity) ls (start items) = some s → ¬ Stuck s
  ends : ∃ bound, ∀ ls s, run (step capacity) ls (start items) = some s → ls.length ≤ bound
  inOrder : ∀ ls s, run (step capacity) ls (start items) = some s →
    ∃ parts, (∀ i, parts i <+: items i) ∧ Interleaves parts s.received
  complete : ∀ ls s, run (step capacity) ls (start items) = some s →
    (∀ l, step capacity l s = none) → Interleaves items s.received

/-! ## What a critical section does -/

variable {capacity : Nat} {items : Fin n → List α} {l : Label n} {s t : State n α}

variable {woken : Option (Thread n)} {ls : List (Label n)} {data : α} {i : Fin n} {rest : List α}
  {toAdd : Fin n → List α} {waiting : Finset (Thread n)}

theorem notifyOne_eq_some {waiting waiting' : Finset (Thread n)} :
    notifyOne waiting woken = some waiting' ↔ (woken = none ∧ waiting = ∅ ∧ waiting' = ∅) ∨
        ∃ t, woken = some t ∧ t ∈ waiting ∧ waiting' = waiting.erase t := by
  cases woken with
  | none => simp [notifyOne, eq_comm]
  | some t => simp [notifyOne, eq_comm]

inductive Moves (capacity : Nat) (s : State n α) : State n α → Prop
  | added {i : Fin n} {data : α} {rest : List α} {woken : Option (Thread n)}
      {waiting : Finset (Thread n)} (hawake : .producer i ∉ s.waiting)
      (hitem : s.toAdd i = data :: rest) (hroom : s.buffer.length < capacity)
      (hnotify : notifyOne s.waiting woken = some waiting) :
      Moves capacity s
        { s with
          buffer := s.buffer ++ [data]
          waiting := waiting
          toAdd := update s.toAdd i rest }
  | full {i : Fin n} (hawake : .producer i ∉ s.waiting) (hitem : s.toAdd i ≠ [])
      (hfull : capacity ≤ s.buffer.length) :
      Moves capacity s { s with waiting := insert (.producer i) s.waiting }
  | got {data : α} {rest : List α} {toGet : Nat} {woken : Option (Thread n)}
      {waiting : Finset (Thread n)} (hawake : .consumer ∉ s.waiting) (hget : s.toGet = toGet + 1)
      (hbuffer : s.buffer = data :: rest) (hnotify : notifyOne s.waiting woken = some waiting) :
      Moves capacity s
        { s with
          buffer := rest
          waiting := waiting
          toGet := toGet
          received := s.received ++ [data] }
  | empty (hawake : .consumer ∉ s.waiting) (hget : s.toGet ≠ 0) (hbuffer : s.buffer = []) :
      Moves capacity s { s with waiting := insert .consumer s.waiting }

theorem moves_of_step (h : step capacity l s = some t) : Moves capacity s t := by
  unfold step at h
  split_ifs at h with hawake
  split at h
  · rename_i i hl
    rw [hl] at hawake
    unfold add at h
    split at h
    · exact absurd h nofun
    · rename_i data rest hitem
      split_ifs at h with hroom
      · obtain ⟨waiting, hnotify, rfl⟩ := Option.map_eq_some_iff.1 h
        exact .added hawake hitem hroom hnotify
      · cases h
        exact .full hawake (by rw [hitem]; exact cons_ne_nil _ _) (Nat.le_of_not_lt hroom)
  · rename_i hl
    rw [hl] at hawake
    unfold get at h
    split at h
    · exact absurd h nofun
    · rename_i toGet hget
      split at h
      · rename_i hbuffer
        cases h
        exact .empty hawake (by rw [hget]; exact succ_ne_zero _) hbuffer
      · rename_i data rest hbuffer
        obtain ⟨waiting, hnotify, rfl⟩ := Option.map_eq_some_iff.1 h
        exact .got hawake hget hbuffer hnotify

theorem Moves.exists_step (h : Moves capacity s t) : ∃ l, step capacity l s = some t := by
  cases h with
  | @added i data rest woken waiting hawake hitem hroom hnotify =>
    exact ⟨⟨.producer i, woken⟩, by simp [step, hawake, add, hitem, hroom, hnotify]⟩
  | @full i hawake hitem hfull =>
    obtain ⟨data, rest, hitem⟩ := exists_cons_of_ne_nil hitem
    exact ⟨⟨.producer i, none⟩, by simp [step, hawake, add, hitem, Nat.not_lt_of_le hfull]⟩
  | @got data rest toGet woken waiting hawake hget hbuffer hnotify =>
    exact ⟨⟨.consumer, woken⟩, by simp [step, hawake, get, hget, hbuffer, hnotify]⟩
  | empty hawake hget hbuffer =>
    obtain ⟨toGet, hget⟩ := exists_eq_succ_of_ne_zero hget
    exact ⟨⟨.consumer, none⟩, by simp [step, hawake, get, hget, hbuffer]⟩

/-! ## Every item once and in order -/

theorem Interleaves.append {parts : Fin n → List α} {l : List α} (h : Interleaves parts l)
    (i : Fin n) (x : α) :
    Interleaves (update parts i (parts i ++ [x])) (l ++ [x]) := by
  obtain ⟨tagged, rfl, hparts⟩ := h
  refine ⟨tagged ++ [(i, x)], by rw [map_append, List.map_singleton], fun j => ?_⟩
  rw [filter_append, map_append, hparts]
  by_cases hj : j = i
  · subst hj
    simp
  · have hne : i ≠ j := fun h => hj h.symm
    simp [update_of_ne hj, hne]

theorem Interleaves.left {parts : Fin n → List α} {l l' : List α} (h : Interleaves parts (l ++ l')) :
    ∃ parts', (∀ i, parts' i <+: parts i) ∧ Interleaves parts' l := by
  obtain ⟨tagged, hmap, hparts⟩ := h
  obtain ⟨left, right, rfl, hleft, -⟩ := map_eq_append_iff.1 hmap
  refine ⟨fun i => (left.filter fun x => x.1 = i).map Prod.snd, fun i => ?_, left, hleft,
    fun i => rfl⟩
  rw [← hparts i, filter_append, map_append]
  exact prefix_append _ _

/-- What was received and what is in the buffer interleave what the producers have added, and these
items with those still to be added are all items. -/
def Accounts (items : Fin n → List α) (s : State n α) : Prop :=
  ∃ parts, Interleaves parts (s.received ++ s.buffer) ∧ ∀ i, parts i ++ s.toAdd i = items i

theorem accounts_start : Accounts items (start items) :=
  ⟨fun _ => [], ⟨[], rfl, fun _ => rfl⟩, fun _ => rfl⟩

theorem Accounts.step (h : Accounts items s) (hstep : step capacity l s = some t) :
    Accounts items t := by
  obtain ⟨parts, hparts, hitems⟩ := h
  cases moves_of_step hstep with
  | @added i data rest woken waiting hawake hitem hroom hnotify =>
    refine ⟨_, append_assoc _ _ _ ▸ hparts.append i data, fun j => ?_⟩
    by_cases hj : j = i
    · subst hj
      simp only [update_self]
      rw [append_assoc, singleton_append, ← hitem]
      exact hitems j
    · simp only [update_of_ne hj]
      exact hitems j
  | full hawake hitem hfull => exact ⟨parts, hparts, hitems⟩
  | got hawake hget hbuffer hnotify =>
    refine ⟨parts, ?_, hitems⟩
    rw [hbuffer] at hparts
    simpa using hparts
  | empty hawake hget hbuffer => exact ⟨parts, hparts, hitems⟩

/-- **Every item once and in order**: at every moment of every run. -/
theorem run_accounts (hrun : run (step capacity) ls (start items) = some s) : Accounts items s :=
  run_invariant (fun _ _ _ hs hstep => Accounts.step hs hstep) hrun accounts_start

/-! ## The numbers of threads and items -/

def sleeping (s : State n α) : Finset (Fin n) :=
  univ.filter fun i => .producer i ∈ s.waiting

theorem total_update (h : toAdd i = data :: rest) :
    total (update toAdd i rest) + 1 = total toAdd := by
  have hsum := sum_update (fun _ l => l.length) toAdd i rest
  rw [h, length_cons] at hsum
  unfold total
  omega

theorem card_producers_update (h : toAdd i = data :: rest) :
    (producers (update toAdd i rest)).card ≤ (producers toAdd).card ∧
      (producers toAdd).card ≤ (producers (update toAdd i rest)).card + 1 := by
  have hcard := card_update (fun (_ : Fin n) (l : List α) => l ≠ []) toAdd i rest
  rw [h, if_pos (cons_ne_nil _ _)] at hcard
  unfold producers
  split_ifs at hcard <;> omega

theorem card_producers_le_total (toAdd : Fin n → List α) : (producers toAdd).card ≤ total toAdd := by
  unfold producers
  rw [card_filter]
  refine Finset.sum_le_sum fun i _ => ?_
  split_ifs with h
  · exact length_pos_iff.2 h
  · exact zero_le _

theorem sleeping_subset (h : ∀ i, .producer i ∈ s.waiting → s.toAdd i ≠ []) :
    sleeping s ⊆ producers s.toAdd := fun i hi =>
  Finset.mem_filter.2 ⟨mem_univ i, h i (Finset.mem_filter.1 hi).2⟩

theorem card_sleeping_insert (h : .producer i ∉ s.waiting) :
    (sleeping { s with waiting := insert (.producer i) s.waiting }).card = (sleeping s).card + 1 := by
  have hset : sleeping { s with waiting := insert (.producer i) s.waiting } =
      insert i (sleeping s) := by
    ext j
    simp [sleeping]
  rw [hset, card_insert_of_notMem (by simpa [sleeping] using h)]

theorem card_sleeping_erase {j : Fin n} (h : .producer j ∈ s.waiting) :
    (univ.filter fun i => .producer i ∈ s.waiting.erase (.producer j)).card + 1 =
      (sleeping s).card := by
  have hset : (univ.filter fun i => Thread.producer i ∈ s.waiting.erase (.producer j)) =
      (sleeping s).erase j := by
    ext i
    simp [sleeping]
  have hj : j ∈ sleeping s := by simpa [sleeping] using h
  rw [hset, card_erase_of_mem hj]
  exact Nat.sub_add_cancel (card_pos.2 ⟨j, hj⟩)

/-- How a wake-up changes the sleeping threads: nobody slept, or the consumer or a producer was
woken. -/
theorem notify_cases (h : notifyOne s.waiting woken = some waiting) :
    (.consumer ∉ s.waiting ∧ .consumer ∉ waiting ∧ (sleeping s).card = 0 ∧
      (univ.filter fun i => .producer i ∈ waiting).card = 0) ∨
    (.consumer ∈ s.waiting ∧ .consumer ∉ waiting ∧
      (univ.filter fun i => .producer i ∈ waiting).card = (sleeping s).card) ∨
    ((.consumer ∈ waiting ↔ .consumer ∈ s.waiting) ∧
      (univ.filter fun i => .producer i ∈ waiting).card + 1 = (sleeping s).card) := by
  obtain ⟨-, hempty, rfl⟩ | ⟨w, -, hw, rfl⟩ := notifyOne_eq_some.1 h
  · exact .inl ⟨by simp [hempty], by simp, by simp [sleeping, hempty], by simp⟩
  · cases w with
    | consumer => exact .inr (.inl ⟨hw, notMem_erase _ _, by simp [sleeping]⟩)
    | producer j => exact .inr (.inr ⟨by simp, card_sleeping_erase hw⟩)

theorem subset_of_notify (h : notifyOne s.waiting woken = some waiting) : waiting ⊆ s.waiting := by
  obtain ⟨-, -, rfl⟩ | ⟨w, -, -, rfl⟩ := notifyOne_eq_some.1 h
  · exact empty_subset _
  · exact Finset.erase_subset _ _

structure Ledger (capacity : Nat) (items : Fin n → List α) (s : State n α) : Prop where
  asleep : ∀ i, .producer i ∈ s.waiting → s.toAdd i ≠ []
  gets : .consumer ∈ s.waiting → s.toGet ≠ 0
  room : s.buffer.length ≤ capacity
  added : s.received.length + s.buffer.length + total s.toAdd = total items
  left : s.received.length + s.toGet = total items
  unfinished : (producers s.toAdd).card ≤ (producers items).card
  /-- Producers sleep only after the buffer was full once. -/
  filled : 0 < (sleeping s).card → capacity ≤ s.received.length + s.buffer.length
  /-- While producers sleep, those awake can fill the buffer: every `get` since has woken one. -/
  awake : 0 < (sleeping s).card →
    capacity + (sleeping s).card ≤ (producers s.toAdd).card + s.buffer.length
  /-- The consumer sleeps, and there are producers left to take its wake-ups. -/
  atRisk : .consumer ∈ s.waiting → s.buffer.length < capacity → 0 < (sleeping s).card →
    capacity + s.buffer.length + (sleeping s).card ≤ (producers items).card ∧
      2 * capacity + s.buffer.length + (sleeping s).card ≤ total items
  /-- Every item that came while the consumer sleeps woke another producer. -/
  lost : .consumer ∈ s.waiting → 0 < s.buffer.length →
    capacity + s.buffer.length ≤ (producers items).card ∧
      2 * capacity + s.buffer.length ≤ total items
  /-- The producer that was woken last is still awake. -/
  stirring : .consumer ∈ s.waiting → 0 < s.buffer.length → s.buffer.length < capacity →
    (sleeping s).card < (producers s.toAdd).card

theorem ledger_start : Ledger capacity items (start items) where
  asleep := fun i hi => absurd hi (Finset.notMem_empty _)
  gets := fun h => absurd h (Finset.notMem_empty _)
  room := zero_le _
  added := by simp [start]
  left := by simp [start]
  unfinished := le_refl _
  filled := by simp [start, sleeping]
  awake := by simp [start, sleeping]
  atRisk := fun h => absurd h (Finset.notMem_empty _)
  lost := fun h => absurd h (Finset.notMem_empty _)
  stirring := fun h => absurd h (Finset.notMem_empty _)

namespace Ledger

section

variable (h : Ledger capacity items s)

include h

theorem card_sleeping_lt (hawake : .producer i ∉ s.waiting)
    (hitem : s.toAdd i ≠ []) : (sleeping s).card < (producers s.toAdd).card := by
  refine card_lt_card ((ssubset_iff_of_subset (sleeping_subset h.asleep)).2
    ⟨i, Finset.mem_filter.2 ⟨mem_univ i, hitem⟩, fun hi => ?_⟩)
  exact hawake (Finset.mem_filter.1 hi).2

/-- An item is added: a sleeping consumer is woken unless a producer sleeps. -/
theorem added_step (hawake : .producer i ∉ s.waiting)
    (hitem : s.toAdd i = data :: rest) (hroom : s.buffer.length < capacity)
    (hnotify : notifyOne s.waiting woken = some waiting) :
    Ledger capacity items
      { s with
        buffer := s.buffer ++ [data]
        waiting := waiting
        toAdd := update s.toAdd i rest } := by
  have hsub := subset_of_notify hnotify
  have hcases := notify_cases hnotify
  have htotal := total_update hitem
  obtain ⟨hfewer, hmost⟩ := card_producers_update hitem
  have hadded := h.added
  have hfilled := h.filled
  have hall := h.awake
  have hlen : (s.buffer ++ [data]).length = s.buffer.length + 1 := by simp
  -- while the consumer sleeps on, a producer was woken in its place
  have hlost : .consumer ∈ waiting →
      (univ.filter fun i => .producer i ∈ waiting).card + 1 = (sleeping s).card ∧
      capacity + s.buffer.length + (sleeping s).card ≤ (producers items).card ∧
      2 * capacity + s.buffer.length + (sleeping s).card ≤ total items := by
    intro hconsumer
    rcases hcases with ⟨-, hno, -⟩ | ⟨-, hno, -⟩ | ⟨hiff, hcard⟩
    · exact absurd hconsumer hno
    · exact absurd hconsumer hno
    · exact ⟨hcard, h.atRisk (hiff.1 hconsumer) hroom (by omega)⟩
  refine ⟨fun j hj => ?_, fun hc => h.gets (hsub hc), ?_, ?_, h.left, hfewer.trans h.unfinished,
    ?_, ?_, fun hc => ?_, fun hc => ?_, fun hc => ?_⟩
  · have hne : j ≠ i := by
      rintro rfl
      exact hawake (hsub hj)
    change update s.toAdd i rest j ≠ []
    rw [update_of_ne hne]
    exact h.asleep j (hsub hj)
  all_goals simp only [sleeping] at *
  · omega
  · omega
  · omega
  · omega
  · have := hlost hc
    omega
  · have := hlost hc
    omega
  · have := hlost hc
    omega

theorem full_step (hawake : .producer i ∉ s.waiting)
    (hitem : s.toAdd i ≠ []) (hfull : capacity ≤ s.buffer.length) :
    Ledger capacity items { s with waiting := insert (.producer i) s.waiting } := by
  have hlt := h.card_sleeping_lt hawake hitem
  have hcard := card_sleeping_insert hawake
  have hconsumer : .consumer ∈ insert (.producer i) s.waiting ↔ .consumer ∈ s.waiting := by simp
  refine ⟨fun j hj => ?_, fun hc => h.gets (hconsumer.1 hc), h.room, h.added, h.left,
    h.unfinished, fun _ => hfull.trans (le_add_left _ _), fun _ => ?_, fun _ hlt => ?_,
    fun hc => h.lost (hconsumer.1 hc), fun _ _ hlt => ?_⟩
  · rcases Finset.mem_insert.1 hj with heq | hold
    · cases heq
      exact hitem
    · exact h.asleep j hold
  · rw [hcard]
    change capacity + ((sleeping s).card + 1) ≤ (producers s.toAdd).card + s.buffer.length
    omega
  · exact absurd hfull (Nat.not_le_of_lt hlt)
  · exact absurd hfull (Nat.not_le_of_lt hlt)

/-- The consumer gets an item: a producer is woken unless none sleeps. -/
theorem got_step {toGet : Nat} (hawake : .consumer ∉ s.waiting)
    (hget : s.toGet = toGet + 1) (hbuffer : s.buffer = data :: rest)
    (hnotify : notifyOne s.waiting woken = some waiting) :
    Ledger capacity items
      { s with
        buffer := rest
        waiting := waiting
        toGet := toGet
        received := s.received ++ [data] } := by
  have hsub := subset_of_notify hnotify
  have hno : .consumer ∉ waiting := fun hc => hawake (hsub hc)
  have hlen : s.buffer.length = rest.length + 1 := by rw [hbuffer, length_cons]
  have hlen' : (s.received ++ [data]).length = s.received.length + 1 := by simp
  have hcases : (univ.filter fun i => .producer i ∈ waiting).card = 0 ∨
      (univ.filter fun i => .producer i ∈ waiting).card + 1 = (sleeping s).card := by
    rcases notify_cases hnotify with ⟨-, -, -, hzero⟩ | ⟨hc, -⟩ | ⟨-, hcard⟩
    · exact .inl hzero
    · exact absurd hc hawake
    · exact .inr hcard
  have hroom := h.room
  have hadded := h.added
  have hleft := h.left
  have hfilled := h.filled
  have hall := h.awake
  refine ⟨fun j hj => h.asleep j (hsub hj), fun hc => absurd hc hno, ?_, ?_, ?_, h.unfinished,
    ?_, ?_, fun hc => absurd hc hno, fun hc => absurd hc hno, fun hc => absurd hc hno⟩
  all_goals simp only [sleeping] at *
  all_goals omega

/-- The consumer finds the buffer empty: this is where a wake-up can get lost. -/
theorem empty_step (hget : s.toGet ≠ 0) (hbuffer : s.buffer = []) :
    Ledger capacity items { s with waiting := insert .consumer s.waiting } := by
  have hsleeping : sleeping { s with waiting := insert .consumer s.waiting } = sleeping s := by
    simp [sleeping]
  have hlen : s.buffer.length = 0 := by rw [hbuffer, length_nil]
  have hle := card_producers_le_total s.toAdd
  have hadded := h.added
  have hunf := h.unfinished
  have hfilled := h.filled
  have hall := h.awake
  refine ⟨fun j hj => h.asleep j ?_, fun _ => hget, h.room, h.added, h.left, h.unfinished, ?_, ?_,
    fun _ _ => ?_, fun _ hpos => absurd hlen hpos.ne', fun _ hpos => absurd hlen hpos.ne'⟩
  · simpa using hj
  · rw [hsleeping]
    exact hfilled
  · rw [hsleeping]
    exact hall
  · rw [hsleeping]
    change 0 < (sleeping s).card → capacity + s.buffer.length + (sleeping s).card ≤ _ ∧
      2 * capacity + s.buffer.length + (sleeping s).card ≤ _
    omega

theorem step (hstep : step capacity l s = some t) : Ledger capacity items t := by
  cases moves_of_step hstep with
  | added hawake hitem hroom hnotify => exact h.added_step hawake hitem hroom hnotify
  | full hawake hitem hfull => exact h.full_step hawake hitem hfull
  | got hawake hget hbuffer hnotify => exact h.got_step hawake hget hbuffer hnotify
  | empty hawake hget hbuffer => exact h.empty_step hget hbuffer

/-- **A deadlock needs many producers and many items**: one capacity of them filled the buffer
before the consumer slept, one capacity was awake then, and one slept and took its wake-ups. -/
theorem of_stuck (hcap : 1 ≤ capacity) (hstuck : Stuck s) :
    2 * capacity ≤ (producers items).card ∧ 3 * capacity ≤ total items := by
  obtain ⟨⟨t, ht⟩, hall⟩ := hstuck
  have hadded := h.added
  have hleft := h.left
  have hawake := h.awake
  -- every unfinished producer sleeps
  have hasleep : (producers s.toAdd).card ≤ (sleeping s).card := by
    refine card_le_card fun i hi => Finset.mem_filter.2 ⟨mem_univ i, ?_⟩
    exact hall (.producer i) (Finset.mem_filter.1 hi).2
  -- and so does the consumer, which has items to get as long as a producer has some to add
  have hget : s.toGet ≠ 0 := by
    cases t with
    | consumer => exact ht
    | producer i =>
      have hpos : 0 < (producers s.toAdd).card :=
        card_pos.2 ⟨i, Finset.mem_filter.2 ⟨mem_univ i, ht⟩⟩
      omega
  have hconsumer : .consumer ∈ s.waiting := hall .consumer hget
  have hlost := h.lost hconsumer
  have hstirring := h.stirring hconsumer
  have hpos : 0 < s.buffer.length := by
    by_contra hzero
    have hdone : total s.toAdd = 0 := by
      refine Finset.sum_eq_zero fun i _ => ?_
      by_contra hi
      have hmem : i ∈ producers s.toAdd :=
        Finset.mem_filter.2 ⟨mem_univ i, fun hnil => hi (by rw [hnil]; rfl)⟩
      exact absurd (card_pos.2 ⟨i, hmem⟩) (by omega)
    omega
  omega

end

/-- **The numbers hold at every moment of every run.** -/
theorem of_run (hrun : run (SharedBuffer.step capacity) ls (start items) = some s) :
    Ledger capacity items s :=
  run_invariant (fun _ _ _ hs hstep => Ledger.step hs hstep) hrun ledger_start

end Ledger

/-! ## Runs end -/

/-- The calls still to be made, each counted twice, and the threads that are awake. -/
def measure (s : State n α) : Nat := 2 * (total s.toAdd + s.toGet) + s.waitingᶜ.card

theorem card_compl_notify (h : notifyOne s.waiting woken = some waiting) :
    waitingᶜ.card ≤ s.waitingᶜ.card + 1 := by
  obtain ⟨-, hempty, rfl⟩ | ⟨w, -, -, rfl⟩ := notifyOne_eq_some.1 h
  · rw [hempty]
    exact le_succ _
  · rw [compl_erase]
    exact card_insert_le _ _

theorem card_compl_insert {t : Thread n} (h : t ∉ s.waiting) :
    (insert t s.waiting)ᶜ.card < s.waitingᶜ.card := by
  rw [compl_insert]
  exact card_erase_lt_of_mem (mem_compl.2 h)

theorem measure_step (h : step capacity l s = some t) : measure t < measure s := by
  cases moves_of_step h with
  | added hawake hitem hroom hnotify =>
    have htotal := total_update hitem
    have hcard := card_compl_notify hnotify
    simp only [measure]
    omega
  | full hawake hitem hfull =>
    have hcard := card_compl_insert hawake
    simp only [measure]
    omega
  | got hawake hget hbuffer hnotify =>
    have hcard := card_compl_notify hnotify
    simp only [measure]
    omega
  | empty hawake hget hbuffer =>
    have hcard := card_compl_insert hawake
    simp only [measure]
    omega

/-! ## A schedule with a deadlock -/

/-- A producer can be chosen whose next item can go while many still have one. -/
theorem exists_spare {m : Nat} (hm : m ≤ (producers toAdd).card) (htotal : m < total toAdd) :
    ∃ i data rest, toAdd i = data :: rest ∧ m ≤ (producers (update toAdd i rest)).card := by
  rcases hm.lt_or_eq with hlt | heq
  · obtain ⟨i, hi⟩ := card_pos.1 (zero_lt_of_lt hlt)
    obtain ⟨data, rest, hitem⟩ := exists_cons_of_ne_nil (Finset.mem_filter.1 hi).2
    have hcard := card_producers_update hitem
    exact ⟨i, data, rest, hitem, by omega⟩
  · -- as many producers as needed, but more items: one of them has a second one
    have htwo : ∃ i, 2 ≤ (toAdd i).length := by
      by_contra hno
      push Not at hno
      have hle : total toAdd ≤ (producers toAdd).card := by
        unfold producers
        rw [card_filter]
        refine Finset.sum_le_sum fun i _ => ?_
        have hi := hno i
        split_ifs with hne
        · omega
        · rw [not_not.1 hne]
          exact le_refl _
      omega
    obtain ⟨i, hi⟩ := htwo
    match hitem : toAdd i with
    | [] => rw [hitem] at hi; exact absurd hi (by simp)
    | [_] => rw [hitem] at hi; exact absurd hi (by simp)
    | data :: second :: rest =>
      refine ⟨i, data, second :: rest, hitem, ?_⟩
      have hcard := card_update (fun (_ : Fin n) (l : List α) => l ≠ []) toAdd i (second :: rest)
      rw [hitem, if_pos (cons_ne_nil _ _), if_pos (cons_ne_nil _ _)] at hcard
      unfold producers at heq ⊢
      omega

/-- First the buffer is filled with items that the later adders do not need. -/
theorem exists_filled (hproducers : 2 * capacity ≤ (producers items).card)
    (htotal : 3 * capacity ≤ total items) : ∀ k ≤ capacity, ∃ ls s,
      run (step capacity) ls (start items) = some s ∧ s.buffer.length = k ∧ s.waiting = ∅ ∧
      s.received = [] ∧ 2 * capacity ≤ (producers s.toAdd).card
  | 0, _ => ⟨[], start items, rfl, rfl, rfl, rfl, hproducers⟩
  | k + 1, hk => by
    obtain ⟨ls, s, hrun, hlen, hnobody, hreceived, hmany⟩ :=
      exists_filled hproducers htotal k (le_of_succ_le hk)
    have hadded := (Ledger.of_run hrun).added
    rw [hreceived, length_nil] at hadded
    obtain ⟨i, data, rest, hitem, hspare⟩ := exists_spare hmany (by omega)
    have hnotify : notifyOne s.waiting none = some ∅ := if_pos hnobody
    have hmoves : Moves capacity s _ := .added (by simp [hnobody]) hitem (by omega) hnotify
    obtain ⟨l, hstep⟩ := hmoves.exists_step
    exact ⟨ls ++ [l], _, run_append_eq_some.2 ⟨s, hrun, run_cons_eq_some.2 ⟨_, hstep, rfl⟩⟩,
      by simp [hlen], rfl, hreceived, hspare⟩

/-- At a full buffer all unfinished producers can go to sleep. -/
theorem exists_asleep (hfull : capacity ≤ s.buffer.length) : ∃ ls, run (step capacity) ls s =
      some { s with waiting := s.waiting ∪ (producers s.toAdd).image .producer } := by
  suffices h : ∀ F ⊆ producers s.toAdd, ∃ ls, run (step capacity) ls s =
      some { s with waiting := s.waiting ∪ F.image .producer } from h _ (Finset.Subset.refl _)
  intro F hF
  induction F using Finset.induction_on with
  | empty => exact ⟨[], by simp⟩
  | insert i F _ ih =>
    obtain ⟨ls, hrun⟩ := ih ((Finset.subset_insert i F).trans hF)
    have hitem : s.toAdd i ≠ [] := (Finset.mem_filter.1 (hF (Finset.mem_insert_self i F))).2
    rw [image_insert, union_insert]
    by_cases hasleep : .producer i ∈ s.waiting ∪ F.image .producer
    · rw [insert_eq_of_mem hasleep]
      exact ⟨ls, hrun⟩
    · have hmoves : Moves capacity
          { s with waiting := s.waiting ∪ F.image .producer } _ := .full hasleep hitem hfull
      obtain ⟨l, hstep⟩ := hmoves.exists_step
      exact ⟨ls ++ [l], run_append_eq_some.2 ⟨_, hrun, run_cons_eq_some.2 ⟨_, hstep, rfl⟩⟩⟩

theorem exists_sleeper (h : 0 < (sleeping s).card) : ∃ j, Thread.producer j ∈ s.waiting := by
  obtain ⟨j, hj⟩ := card_pos.1 h
  exact ⟨j, (Finset.mem_filter.1 hj).2⟩

theorem exists_emptied (hawake : .consumer ∉ s.waiting)
    (hsleeping : s.buffer.length ≤ (sleeping s).card) (hget : s.buffer.length ≤ s.toGet) :
    ∃ ls t, run (step capacity) ls s = some t ∧ t.buffer = [] ∧ .consumer ∉ t.waiting ∧
      t.toAdd = s.toAdd ∧ (sleeping t).card + s.buffer.length = (sleeping s).card ∧
      t.toGet + s.buffer.length = s.toGet := by
  induction hbuffer : s.buffer generalizing s with
  | nil => exact ⟨[], s, rfl, hbuffer, hawake, rfl, rfl, rfl⟩
  | cons data rest ih =>
    rw [hbuffer, length_cons] at hsleeping hget
    obtain ⟨j, hj⟩ := exists_sleeper (zero_lt_of_lt hsleeping)
    obtain ⟨toGet, htoGet⟩ := exists_eq_succ_of_ne_zero (by omega : s.toGet ≠ 0)
    have hnotify : notifyOne s.waiting (some (.producer j)) = _ := if_pos hj
    have hmoves : Moves capacity s _ := .got hawake htoGet hbuffer hnotify
    obtain ⟨l, hstep⟩ := hmoves.exists_step
    have hcard := card_sleeping_erase hj
    obtain ⟨ls, t, hrun, hempty, hno, htoAdd, hcount, hgot⟩ :=
      @ih ⟨rest, s.waiting.erase (.producer j), s.toAdd, toGet, s.received ++ [data]⟩
        (by simpa using hawake) (by simp only [sleeping] at *; omega) (by simp only; omega) rfl
    refine ⟨_ :: ls, t, run_cons_eq_some.2 ⟨_, hstep, hrun⟩, hempty, hno, htoAdd, ?_, ?_⟩
    · rw [length_cons]
      simp only [sleeping] at *
      omega
    · rw [length_cons]
      simp only at hgot
      omega

/-- The producers fill the buffer again, and each wakes another producer while the consumer
sleeps. -/
theorem exists_refilled {d : Nat} (h : Ledger capacity items s) (hconsumer : .consumer ∈ s.waiting)
    (hd : s.buffer.length + d = capacity) (hasleep : d ≤ (sleeping s).card)
    (hawake : (sleeping s).card + d ≤ (producers s.toAdd).card) :
    ∃ ls t, run (step capacity) ls s = some t ∧ t.buffer.length = capacity ∧
      .consumer ∈ t.waiting ∧ t.toGet = s.toGet := by
  induction d generalizing s with
  | zero => exact ⟨[], s, rfl, hd, hconsumer, rfl⟩
  | succ d ih =>
    obtain ⟨j, hj⟩ := exists_sleeper (s := s) (by omega)
    obtain ⟨i, hi, hnot⟩ := exists_mem_notMem_of_card_lt_card
      (by omega : (sleeping s).card < (producers s.toAdd).card)
    obtain ⟨data, rest, hitem⟩ := exists_cons_of_ne_nil (Finset.mem_filter.1 hi).2
    have hi : .producer i ∉ s.waiting := fun hmem =>
      hnot (Finset.mem_filter.2 ⟨mem_univ i, hmem⟩)
    have hnotify : notifyOne s.waiting (some (.producer j)) = _ := if_pos hj
    have hmoves : Moves capacity s _ := .added hi hitem (by omega) hnotify
    obtain ⟨l, hstep⟩ := hmoves.exists_step
    have hcard := card_sleeping_erase hj
    have hproducers := card_producers_update hitem
    obtain ⟨ls, t, hrun, hlen, hstill, hget⟩ := ih (h.step hstep) (by simpa using hconsumer)
      (by rw [length_append, length_singleton]; omega)
      (by simp only [sleeping] at *; omega) (by simp only [sleeping] at *; omega)
    exact ⟨_ :: ls, t, run_cons_eq_some.2 ⟨_, hstep, hrun⟩, hlen, hstill, hget⟩

/-- **A deadlock**: with `2 * capacity` producers and `3 * capacity` items there is a schedule after
which all threads that have not finished sleep. -/
theorem exists_stuck (hcap : 1 ≤ capacity) (hproducers : 2 * capacity ≤ (producers items).card)
    (htotal : 3 * capacity ≤ total items) :
    ∃ ls s, run (step capacity) ls (start items) = some s ∧ Stuck s := by
  obtain ⟨ls₁, s₁, hrun₁, hlen₁, hnobody, hreceived, hmany⟩ :=
    exists_filled hproducers htotal capacity (le_refl _)
  have hleft := (Ledger.of_run hrun₁).left
  rw [hreceived, length_nil] at hleft
  -- all producers sleep
  obtain ⟨ls₂, hrun₂⟩ := exists_asleep hlen₁.ge
  rw [hnobody] at hrun₂
  have hsleeping : sleeping { s₁ with waiting := (producers s₁.toAdd).image .producer } =
      producers s₁.toAdd := by
    ext i
    simp [sleeping]
  -- the consumer takes the whole buffer, wakes a producer each time, and sleeps
  obtain ⟨ls₃, s₃, hrun₃, hempty, hawake, htoAdd, hcount, hgot⟩ := @exists_emptied n α capacity
    { s₁ with waiting := (producers s₁.toAdd).image .producer } (by simp)
    (by rw [hsleeping]; simp only; omega) (by simp only; omega)
  rw [hsleeping] at hcount
  simp only [hlen₁] at htoAdd hcount hgot
  have hget : s₃.toGet ≠ 0 := by omega
  have hmoves : Moves capacity s₃ _ := .empty hawake hget hempty
  obtain ⟨l, hsleep⟩ := hmoves.exists_step
  have h₁₂ := run_append_eq_some.2 ⟨s₁, hrun₁, hrun₂⟩
  have h₁₃ := run_append_eq_some.2 ⟨_, h₁₂, hrun₃⟩
  have hrun := run_append_eq_some.2 ⟨s₃, h₁₃, run_cons_eq_some.2 ⟨_, hsleep, run_nil⟩⟩
  have hsleeping₄ : sleeping { s₃ with waiting := insert .consumer s₃.waiting } = sleeping s₃ := by
    simp [sleeping]
  -- the woken producers fill the buffer and wake the others, which go to sleep again
  obtain ⟨ls₅, s₅, hrun₅, hlen₅, hconsumer, hget₅⟩ := exists_refilled (d := capacity)
    (Ledger.of_run hrun) (Finset.mem_insert_self _ _) (by simp [hempty])
    (by rw [hsleeping₄]; omega) (by rw [hsleeping₄]; simp only [htoAdd]; omega)
  obtain ⟨ls₆, hrun₆⟩ := exists_asleep hlen₅.ge
  refine ⟨_, _, run_append_eq_some.2 ⟨s₅, run_append_eq_some.2 ⟨_, hrun, hrun₅⟩, hrun₆⟩,
    ⟨.consumer, ?_⟩, fun t ht => ?_⟩
  · rw [hget₅]
    exact hget
  · cases t with
    | consumer => exact Finset.mem_union_left _ hconsumer
    | producer i =>
      exact Finset.mem_union_right _ (mem_image_of_mem _ (Finset.mem_filter.2 ⟨mem_univ i, ht⟩))

/-! ## When the buffer delivers -/

theorem exists_notifyOne (waiting : Finset (Thread n)) :
    ∃ woken waiting', notifyOne waiting woken = some waiting' := by
  rcases waiting.eq_empty_or_nonempty with rfl | ⟨t, ht⟩
  · exact ⟨none, ∅, rfl⟩
  · exact ⟨some t, _, if_pos ht⟩

/-- A thread that is awake and has a call to make can enter its critical section. -/
theorem exists_moves {t : Thread n} (ht : Unfinished s t) (hawake : t ∉ s.waiting) :
    ∃ t, Moves capacity s t := by
  obtain ⟨woken, waiting, hnotify⟩ := exists_notifyOne s.waiting
  cases t with
  | producer i =>
    obtain ⟨data, rest, hitem⟩ := exists_cons_of_ne_nil ht
    rcases Nat.lt_or_ge s.buffer.length capacity with hroom | hfull
    · exact ⟨_, .added hawake hitem hroom hnotify⟩
    · exact ⟨_, .full hawake ht hfull⟩
  | consumer =>
    obtain ⟨toGet, hget⟩ := exists_eq_succ_of_ne_zero ht
    cases hbuffer : s.buffer with
    | nil => exact ⟨_, .empty hawake ht hbuffer⟩
    | cons data rest => exact ⟨_, .got hawake hget hbuffer hnotify⟩

theorem finished_or_stuck (hend : ∀ l, step capacity l s = none) :
    (∀ t, ¬ Unfinished s t) ∨ Stuck s := by
  by_cases hex : ∃ t, Unfinished s t
  · refine .inr ⟨hex, fun t ht => ?_⟩
    by_contra hawake
    obtain ⟨u, hmoves⟩ := @exists_moves n α capacity s t ht hawake
    obtain ⟨l, hl⟩ := hmoves.exists_step
    exact absurd hl (by rw [hend l]; exact nofun)
  · exact .inl (not_exists.1 hex)

theorem interleaves_of_finished (hrun : run (step capacity) ls (start items) = some s)
    (hdone : ∀ t, ¬ Unfinished s t) : Interleaves items s.received := by
  obtain ⟨parts, hparts, hitems⟩ := run_accounts hrun
  have hadded : ∀ i, s.toAdd i = [] := fun i => not_not.1 (hdone (.producer i))
  have hget : s.toGet = 0 := not_not.1 (hdone .consumer)
  have hbuffer : s.buffer = [] := by
    have hledger := Ledger.of_run hrun
    have h₁ := hledger.added
    have h₂ := hledger.left
    exact length_eq_zero_iff.1 (by omega)
  have hall : parts = items := by
    funext i
    rw [← hitems i, hadded i, append_nil]
  rwa [hbuffer, append_nil, hall] at hparts

/-- **The bounded buffer delivers everything exactly if its producers or its items are few**: fewer
producers than two capacities, or fewer items than three. -/
theorem delivers_iff (capacity : Nat) (hcap : 1 ≤ capacity) (items : Fin n → List α) :
    Delivers capacity items ↔
      (producers items).card < 2 * capacity ∨ total items < 3 * capacity := by
  constructor
  · intro h
    by_contra hmany
    push Not at hmany
    obtain ⟨ls, s, hrun, hstuck⟩ := exists_stuck hcap hmany.1 hmany.2
    exact h.deadlockFree ls s hrun hstuck
  · intro hfew
    have hfree : ∀ ls s, run (step capacity) ls (start items) = some s → ¬ Stuck s := by
      intro ls s hrun hstuck
      have hmany := (Ledger.of_run hrun).of_stuck hcap hstuck
      omega
    have hends : ∀ ls s, run (step capacity) ls (start items) = some s →
        ls.length ≤ measure (start items) := fun ls s hrun =>
      (le_add_right _ _).trans (run_length_le (fun _ _ _ => measure_step) hrun)
    refine ⟨hfree, ⟨_, hends⟩, fun ls s hrun => ?_, fun ls s hrun hend => ?_⟩
    · obtain ⟨parts, hparts, hitems⟩ := run_accounts hrun
      obtain ⟨parts', hle, hreceived⟩ := hparts.left
      exact ⟨parts', fun i => (hle i).trans ⟨_, hitems i⟩, hreceived⟩
    · exact interleaves_of_finished hrun ((finished_or_stuck hend).resolve_right (hfree ls s hrun))

/-- Three partitions that feed one operator, with two rows and an end marker each. -/
theorem three_producers_deliver : Delivers 5 (fun _ : Fin 3 => ["row", "row", "-1"]) :=
  (delivers_iff 5 (by decide) _).2 (.inl (by decide))

/-- Ten partitions that feed one operator, with a row and an end marker each, can end in a
deadlock. -/
theorem ten_producers_not_deliver : ¬ Delivers 5 (fun _ : Fin 10 => ["row", "-1"]) := by
  intro h
  have hproducers : 2 * 5 ≤ (producers fun _ : Fin 10 => ["row", "-1"]).card := by decide
  have htotal : 3 * 5 ≤ total fun _ : Fin 10 => ["row", "-1"] := by decide
  obtain ⟨ls, s, hrun, hstuck⟩ := exists_stuck (by decide) hproducers htotal
  exact h.deadlockFree ls s hrun hstuck

end JasmineGraph.Cypher.SharedBuffer
