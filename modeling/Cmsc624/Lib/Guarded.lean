import Cmsc624.Lib.Runs
import Mathlib.Logic.Function.Basic
import Mathlib.Data.List.Nodup

/-!
# Objects guarded by a lock

The methods of an object run their statements one by one between taking and releasing a
lock: a readers-writer lock, or a mutex, which is one without readers. Seen from outside
such an object is atomic (`Guarded.refines`): every run has the history of a run in which
each call takes effect in one step, at the moment it gets the lock. A method that takes the
lock as a reader must leave the object as it is, whatever statements it is made of.
-/

namespace Lib

universe u v w x

/-- The statements between the lock and the unlock, ending in the result. -/
inductive Body (σ : Type u) (ρ : Type v) where
  | ret (r : ρ)
  | look (k : σ → Body σ ρ)
  | set (f : σ → σ) (k : Body σ ρ)

namespace Body
variable {σ : Type u} {ρ : Type v}

def run : Body σ ρ → σ → σ × ρ
  | ret r, s => (s, r)
  | look k, s => (k s).run s
  | set f k, s => k.run (f s)

/-- From this state on no statement changes the object. -/
def Quiet : Body σ ρ → σ → Prop
  | ret _, _ => True
  | look k, s => (k s).Quiet s
  | set f k, s => f s = s ∧ k.Quiet s

theorem Quiet.run_fst {b : Body σ ρ} {s : σ} (h : b.Quiet s) : (b.run s).1 = s := by
  induction b with
  | ret r => rfl
  | look k ih => exact ih s h
  | set f k ih =>
    rw [run, h.1]
    exact ih h.2

end Body

/-- How a method takes the lock; `trying` returns the given result if the lock is taken. -/
inductive Guard (ρ : Type v) where
  | shared
  | exclusive
  | trying (busy : ρ)

structure Guarded (Op : Type w) (σ : Type u) (ρ : Type v) where
  guard : Op → Guard ρ
  body : Op → Body σ ρ
  -- Readers only read.
  quiet : ∀ op, guard op = .shared → ∀ s, (body op).Quiet s

/-- Where a thread is in its call. -/
inductive Phase (Op : Type w) (σ : Type u) (ρ : Type v) where
  | idle
  | called (op : Op)
  | inside (op : Op) (rest : Body σ ρ)
  | done (r : ρ)

inductive Holder (ι : Type x) where
  | shared (readers : List ι)
  | exclusive (i : ι)

structure GuardedState (ι : Type x) (Op : Type w) (σ : Type u) (ρ : Type v) where
  mem : σ
  lock : Holder ι
  phase : ι → Phase Op σ ρ

/-- What a step is, seen from outside; `effect` is where the call takes effect. -/
inductive CallEvent (ι : Type x) (Op : Type w) (ρ : Type v) where
  | invoke (i : ι) (op : Op)
  | respond (i : ι) (r : ρ)
  | effect (i : ι) (op : Op) (r : ρ)
  | tau

def history {ι : Type x} {Op : Type w} {ρ : Type v} (tr : List (CallEvent ι Op ρ)) :
    List (CallEvent ι Op ρ) :=
  tr.filter fun | .invoke _ _ => true | .respond _ _ => true | _ => false

section System
variable {ι : Type x} {Op : Type w} {σ : Type u} {ρ : Type v} [DecidableEq ι]

def GuardedState.init (s : σ) : GuardedState ι Op σ ρ := ⟨s, .shared [], fun _ => .idle⟩

def GuardedState.goto (c : GuardedState ι Op σ ρ) (i : ι) (p : Phase Op σ ρ) :
    GuardedState ι Op σ ρ :=
  { c with phase := Function.update c.phase i p }

/-- One statement of one thread. -/
inductive GuardedStep (obj : Guarded Op σ ρ) :
    GuardedState ι Op σ ρ → CallEvent ι Op ρ → GuardedState ι Op σ ρ → Prop where
  | invoke {c : GuardedState ι Op σ ρ} {i : ι} (op : Op) (hi : c.phase i = .idle) :
      GuardedStep obj c (.invoke i op) (c.goto i (.called op))
  | readLock {c : GuardedState ι Op σ ρ} {i : ι} {op : Op} {l : List ι}
      (hi : c.phase i = .called op) (hg : obj.guard op = .shared) (hl : c.lock = .shared l) :
      GuardedStep obj c (.effect i op ((obj.body op).run c.mem).2)
        { c.goto i (.inside op (obj.body op)) with lock := .shared (i :: l) }
  | writeLock {c : GuardedState ι Op σ ρ} {i : ι} {op : Op}
      (hi : c.phase i = .called op) (hg : obj.guard op ≠ .shared) (hl : c.lock = .shared []) :
      GuardedStep obj c (.effect i op ((obj.body op).run c.mem).2)
        { c.goto i (.inside op (obj.body op)) with lock := .exclusive i }
  -- `TryLock` fails.
  | busy {c : GuardedState ι Op σ ρ} {i : ι} {op : Op} {r : ρ}
      (hi : c.phase i = .called op) (hg : obj.guard op = .trying r) (hl : c.lock ≠ .shared []) :
      GuardedStep obj c (.effect i op r) (c.goto i (.done r))
  | look {c : GuardedState ι Op σ ρ} {i : ι} {op : Op} {k : σ → Body σ ρ}
      (hi : c.phase i = .inside op (.look k)) :
      GuardedStep obj c .tau (c.goto i (.inside op (k c.mem)))
  | set {c : GuardedState ι Op σ ρ} {i : ι} {op : Op} {f : σ → σ} {k : Body σ ρ}
      (hi : c.phase i = .inside op (.set f k)) :
      GuardedStep obj c .tau { c.goto i (.inside op k) with mem := f c.mem }
  | readUnlock {c : GuardedState ι Op σ ρ} {i : ι} {op : Op} {r : ρ} {l : List ι}
      (hi : c.phase i = .inside op (.ret r)) (hl : c.lock = .shared l) :
      GuardedStep obj c .tau { c.goto i (.done r) with lock := .shared (l.erase i) }
  | writeUnlock {c : GuardedState ι Op σ ρ} {i : ι} {op : Op} {r : ρ}
      (hi : c.phase i = .inside op (.ret r)) (hl : c.lock = .exclusive i) :
      GuardedStep obj c .tau { c.goto i (.done r) with lock := .shared [] }
  | respond {c : GuardedState ι Op σ ρ} {i : ι} {r : ρ} (hi : c.phase i = .done r) :
      GuardedStep obj c (.respond i r) (c.goto i .idle)

inductive Call (Op : Type w) (ρ : Type v) where
  | idle
  | called (op : Op)
  | done (r : ρ)

structure AtomicState (ι : Type x) (Op : Type w) (σ : Type u) (ρ : Type v) where
  mem : σ
  call : ι → Call Op ρ

def AtomicState.init (s : σ) : AtomicState ι Op σ ρ := ⟨s, fun _ => .idle⟩

/-- What a call does at once: its whole body, or nothing when it only tries. -/
inductive Applies (obj : Guarded Op σ ρ) (op : Op) (s : σ) : σ → ρ → Prop where
  | run : Applies obj op s ((obj.body op).run s).1 ((obj.body op).run s).2
  | busy {r : ρ} (hg : obj.guard op = .trying r) : Applies obj op s s r

theorem applies_iff {obj : Guarded Op σ ρ} {op : Op} {s s' : σ} {r : ρ} :
    Applies obj op s s' r ↔
      (obj.body op).run s = (s', r) ∨ (s' = s ∧ obj.guard op = .trying r) := by
  constructor
  · intro h
    cases h with
    | run => exact .inl rfl
    | busy hg => exact .inr ⟨rfl, hg⟩
  · rintro (h | ⟨rfl, hg⟩)
    · have hrun : Applies obj op s _ _ := .run
      rwa [h] at hrun
    · exact .busy hg

inductive AtomicStep (obj : Guarded Op σ ρ) :
    AtomicState ι Op σ ρ → CallEvent ι Op ρ → AtomicState ι Op σ ρ → Prop where
  | invoke {a : AtomicState ι Op σ ρ} {i : ι} (op : Op) (hi : a.call i = .idle) :
      AtomicStep obj a (.invoke i op) { a with call := Function.update a.call i (.called op) }
  | effect {a : AtomicState ι Op σ ρ} {i : ι} {op : Op} {s : σ} {r : ρ}
      (hi : a.call i = .called op) (hs : Applies obj op a.mem s r) :
      AtomicStep obj a (.effect i op r) ⟨s, Function.update a.call i (.done r)⟩
  | respond {a : AtomicState ι Op σ ρ} {i : ι} {r : ρ} (hi : a.call i = .done r) :
      AtomicStep obj a (.respond i r) { a with call := Function.update a.call i .idle }

/-- The call as it is seen from outside: inside of the lock it has taken effect. -/
def Phase.call (s : σ) : Phase Op σ ρ → Call Op ρ
  | .idle => .idle
  | .called op => .called op
  | .inside _ rest => .done (rest.run s).2
  | .done r => .done r

/-- The contents when the thread inside has finished. -/
def Phase.final (s : σ) : Phase Op σ ρ → σ
  | .inside _ rest => (rest.run s).1
  | _ => s

def GuardedState.final (c : GuardedState ι Op σ ρ) : σ :=
  match c.lock with
  | .shared _ => c.mem
  | .exclusive i => (c.phase i).final c.mem

def GuardedState.atomic (c : GuardedState ι Op σ ρ) : AtomicState ι Op σ ρ :=
  ⟨c.final, fun i => (c.phase i).call c.mem⟩

def Phase.Inside : Phase Op σ ρ → Prop
  | .inside _ _ => True
  | _ => False

def Phase.Quiet (s : σ) : Phase Op σ ρ → Prop
  | .inside _ rest => rest.Quiet s
  | _ => True

/-- Either readers are inside, who leave the contents alone, or one thread only. -/
structure GuardedState.Locked (c : GuardedState ι Op σ ρ) : Prop where
  shared : ∀ l, c.lock = .shared l →
    l.Nodup ∧ (∀ i, i ∈ l ↔ (c.phase i).Inside) ∧ ∀ i, (c.phase i).Quiet c.mem
  exclusive : ∀ i, c.lock = .exclusive i →
    (c.phase i).Inside ∧ ∀ j, j ≠ i → ¬(c.phase j).Inside

variable {obj : Guarded Op σ ρ} {c c' : GuardedState ι Op σ ρ} {e : CallEvent ι Op ρ} {i j : ι}
  {p : Phase Op σ ρ} {op : Op}

theorem Phase.quiet_of_outside {s : σ} (h : ¬p.Inside) : p.Quiet s := by
  cases p with
  | inside op rest => exact absurd trivial h
  | _ => trivial

omit [DecidableEq ι] in
theorem GuardedState.Locked.init (s : σ) :
    (GuardedState.init s : GuardedState ι Op σ ρ).Locked where
  shared l hl := by
    obtain rfl : l = [] := (Holder.shared.inj hl).symm
    exact ⟨List.nodup_nil, fun i => by simp [GuardedState.init, Phase.Inside], fun _ => trivial⟩
  exclusive i hi := by cases hi

theorem Locked.of_shared {s : σ} {l : List ι} {phase : ι → Phase Op σ ρ} (hl : l.Nodup)
    (hi : i ∈ l ↔ p.Inside) (hp : p.Quiet s)
    (hothers : ∀ j, j ≠ i → ((j ∈ l ↔ (phase j).Inside) ∧ (phase j).Quiet s)) :
    GuardedState.Locked ⟨s, .shared l, Function.update phase i p⟩ where
  shared l' hl' := by
    obtain rfl := Holder.shared.inj hl'
    refine ⟨hl, fun j => ?_, fun j => ?_⟩
    · by_cases hj : j = i
      · subst hj
        simpa using hi
      · simpa [hj] using (hothers j hj).1
    · by_cases hj : j = i
      · subst hj
        simpa using hp
      · simpa [hj] using (hothers j hj).2
  exclusive k hk := by cases hk

theorem Locked.of_exclusive {s : σ} {phase : ι → Phase Op σ ρ} (hp : p.Inside)
    (hothers : ∀ j, j ≠ i → ¬(phase j).Inside) :
    GuardedState.Locked ⟨s, .exclusive i, Function.update phase i p⟩ where
  shared l hl := by cases hl
  exclusive k hk := by
    obtain rfl := Holder.exclusive.inj hk
    refine ⟨by simpa using hp, fun j hj => ?_⟩
    simpa [hj] using hothers j hj

theorem GuardedState.Locked.outside (h : c.Locked) (hi : ¬(c.phase i).Inside) (hp : ¬p.Inside) :
    (c.goto i p).Locked := by
  obtain ⟨s, lock, phase⟩ := c
  cases lock with
  | shared l =>
    obtain ⟨hnodup, hin, hq⟩ := h.shared l rfl
    exact Locked.of_shared hnodup (iff_of_false (fun hmem => hi ((hin i).mp hmem)) hp)
      (Phase.quiet_of_outside hp) fun j _ => ⟨hin j, hq j⟩
  | exclusive k =>
    obtain ⟨hin, hothers⟩ := h.exclusive k rfl
    have hki : k ≠ i := fun hki => hi (hki ▸ hin)
    refine ⟨fun l hl => (by cases hl), fun k' hk' => ?_⟩
    obtain rfl := Holder.exclusive.inj hk'
    refine ⟨by simpa [GuardedState.goto, hki] using hin, fun j hj => ?_⟩
    by_cases hji : j = i
    · subst hji
      simpa [GuardedState.goto] using hp
    · simpa [GuardedState.goto, hji] using hothers j hj

/-- A thread inside can only change the contents if it is alone. -/
theorem GuardedState.Locked.inside {s : σ} (h : c.Locked) (hi : (c.phase i).Inside)
    (hp : p.Inside) (hs : (c.phase i).Quiet c.mem → s = c.mem ∧ p.Quiet c.mem) :
    GuardedState.Locked ⟨s, c.lock, Function.update c.phase i p⟩ := by
  obtain ⟨s₀, lock, phase⟩ := c
  cases lock with
  | shared l =>
    obtain ⟨hnodup, hin, hquiet⟩ := h.shared l rfl
    obtain ⟨rfl, hpq⟩ := hs (hquiet i)
    exact Locked.of_shared hnodup (iff_of_true ((hin i).mpr hi) hp) hpq fun j _ =>
      ⟨hin j, hquiet j⟩
  | exclusive k =>
    obtain ⟨_, hothers⟩ := h.exclusive k rfl
    obtain rfl : i = k := by
      by_contra hik
      exact hothers i hik hi
    exact Locked.of_exclusive hp hothers

theorem GuardedState.Locked.step (h : c.Locked) (hs : GuardedStep obj c e c') : c'.Locked := by
  cases hs with
  | invoke op hi => exact h.outside (by simp [hi, Phase.Inside]) id
  | busy hi hg hl => exact h.outside (by simp [hi, Phase.Inside]) id
  | respond hi => exact h.outside (by simp [hi, Phase.Inside]) id
  | @readLock i op l hi hg hl =>
    obtain ⟨hnodup, hin, hquiet⟩ := h.shared l hl
    have hnot : i ∉ l := fun hmem => by simpa [hi, Phase.Inside] using (hin i).mp hmem
    refine Locked.of_shared (List.nodup_cons.mpr ⟨hnot, hnodup⟩)
      (iff_of_true List.mem_cons_self trivial) (obj.quiet op hg c.mem) fun j hj => ?_
    exact ⟨by rw [List.mem_cons, or_iff_right hj, hin], hquiet j⟩
  | @writeLock i op hi hg hl =>
    obtain ⟨_, hin, _⟩ := h.shared [] hl
    exact Locked.of_exclusive trivial fun j _ hj => List.not_mem_nil ((hin j).mpr hj)
  | @look i op k hi =>
    refine h.inside (by simp [hi, Phase.Inside]) trivial fun hq => ⟨rfl, ?_⟩
    rw [hi] at hq
    exact hq
  | @set i op f k hi =>
    refine h.inside (by simp [hi, Phase.Inside]) trivial fun hq => ?_
    rw [hi] at hq
    exact hq
  | @readUnlock i op r l hi hl =>
    obtain ⟨hnodup, hin, hquiet⟩ := h.shared l hl
    refine Locked.of_shared (hnodup.erase i) (iff_of_false hnodup.not_mem_erase id) trivial
      fun j hj => ?_
    exact ⟨by rw [List.mem_erase_of_ne hj, hin], hquiet j⟩
  | @writeUnlock i op r hi hl =>
    obtain ⟨_, hothers⟩ := h.exclusive i hl
    refine Locked.of_shared List.nodup_nil (iff_of_false List.not_mem_nil id) trivial
      fun j hj => ⟨iff_of_false List.not_mem_nil (hothers j hj), ?_⟩
    exact Phase.quiet_of_outside (hothers j hj)

def CallEvent.visible : CallEvent ι Op ρ → Option (CallEvent ι Op ρ)
  | .tau => none
  | e => some e

omit [DecidableEq ι] in
theorem history_filterMap (tr : List (CallEvent ι Op ρ)) :
    history (tr.filterMap CallEvent.visible) = history tr := by
  induction tr with
  | nil => rfl
  | cons e tr ih =>
    cases e with
    | tau => exact ih
    | effect i op r => exact ih
    | invoke i op => exact congrArg (CallEvent.invoke i op :: ·) ih
    | respond i r => exact congrArg (CallEvent.respond i r :: ·) ih

theorem GuardedState.atomic_update {s : σ} {lock : Holder ι} {phase : ι → Phase Op σ ρ} :
    (⟨s, lock, Function.update phase i p⟩ : GuardedState ι Op σ ρ).atomic =
      ⟨GuardedState.final ⟨s, lock, Function.update phase i p⟩,
        Function.update (fun j => (phase j).call s) i (p.call s)⟩ := by
  refine congrArg (AtomicState.mk _) (funext fun j => ?_)
  by_cases hj : j = i
  · subst hj
    simp
  · simp [hj]

theorem Phase.call_of_outside {s s' : σ} (h : ¬p.Inside) : p.call s = p.call s' := by
  cases p with
  | inside op rest => exact absurd trivial h
  | _ => rfl

/-- The thread that holds the lock alone is the one inside. -/
theorem GuardedState.Locked.holder (h : c.Locked) (hi : (c.phase i).Inside)
    (hj : c.lock = .exclusive j) : j = i := by
  by_contra hne
  exact (h.exclusive j hj).2 i (fun hij => hne hij.symm) hi

theorem GuardedState.Locked.final_outside (h : c.Locked) (hi : ¬(c.phase i).Inside) :
    (c.goto i p).final = c.final := by
  obtain ⟨s, lock, phase⟩ := c
  cases lock with
  | shared l => rfl
  | exclusive k =>
    have hki : k ≠ i := fun hki => hi (hki ▸ (h.exclusive k rfl).1)
    simp [GuardedState.final, GuardedState.goto, hki]

theorem GuardedState.Locked.atomic_outside (h : c.Locked) (hi : ¬(c.phase i).Inside) :
    (c.goto i p).atomic = ⟨c.final, Function.update c.atomic.call i (p.call c.mem)⟩ := by
  rw [← h.final_outside hi]
  exact GuardedState.atomic_update

theorem AtomicStep.of_run (obj : Guarded Op σ ρ) {s : σ} (hi : c.phase i = .called op)
    (hmem : c.final = s) :
    AtomicStep obj c.atomic (.effect i op ((obj.body op).run s).2)
      ⟨((obj.body op).run s).1,
        Function.update c.atomic.call i (.done ((obj.body op).run s).2)⟩ := by
  subst hmem
  exact .effect (by simp [GuardedState.atomic, hi, Phase.call]) .run

/-- A statement inside of the lock does not show. -/
theorem GuardedState.Locked.atomic_inside {s : σ} (h : c.Locked) (hi : (c.phase i).Inside)
    (hs : (c.phase i).Quiet c.mem → s = c.mem) (hcall : p.call s = (c.phase i).call c.mem)
    (hfinal : p.final s = (c.phase i).final c.mem) :
    (⟨s, c.lock, Function.update c.phase i p⟩ : GuardedState ι Op σ ρ).atomic = c.atomic := by
  obtain ⟨s₀, lock, phase⟩ := c
  rw [GuardedState.atomic_update, hcall]
  cases lock with
  | shared l =>
    obtain rfl := hs ((h.shared l rfl).2.2 i)
    exact congrArg (AtomicState.mk _) (Function.update_eq_self i _)
  | exclusive k =>
    obtain rfl := h.holder hi rfl
    have hothers := (h.exclusive k rfl).2
    refine congrArg₂ AtomicState.mk ?_ (funext fun j => ?_)
    · simpa [GuardedState.final] using hfinal
    · by_cases hj : j = k
      · subst hj
        simp
      · simpa [hj] using Phase.call_of_outside (hothers j hj)

/-- Nor does it show when the last statement releases the lock. -/
theorem GuardedState.atomic_unlock {l : List ι} (hcall : p.call c.mem = (c.phase i).call c.mem)
    (hfinal : c.final = c.mem) :
    (⟨c.mem, .shared l, Function.update c.phase i p⟩ : GuardedState ι Op σ ρ).atomic =
      c.atomic := by
  rw [GuardedState.atomic_update, hcall]
  exact congrArg₂ AtomicState.mk hfinal.symm (Function.update_eq_self i _)

theorem GuardedState.Locked.simulates (h : c.Locked) (hs : GuardedStep obj c e c') :
    (e.visible = none ∧ c'.atomic = c.atomic) ∨
      ∃ e', e.visible = some e' ∧ AtomicStep obj c.atomic e' c'.atomic := by
  cases hs with
  | @invoke i op hi =>
    refine .inr ⟨_, rfl, ?_⟩
    rw [h.atomic_outside (by simp [hi, Phase.Inside])]
    exact .invoke op (by simp [GuardedState.atomic, hi, Phase.call])
  | @respond i r hi =>
    refine .inr ⟨_, rfl, ?_⟩
    rw [h.atomic_outside (by simp [hi, Phase.Inside])]
    exact .respond (by simp [GuardedState.atomic, hi, Phase.call])
  | @busy i op r hi hg hl =>
    refine .inr ⟨_, rfl, ?_⟩
    rw [h.atomic_outside (by simp [hi, Phase.Inside])]
    exact .effect (by simp [GuardedState.atomic, hi, Phase.call]) (.busy hg)
  | @readLock i op l hi hg hl =>
    refine .inr ⟨_, rfl, ?_⟩
    have hstep := AtomicStep.of_run obj (s := c.mem) hi (by rw [GuardedState.final, hl])
    rw [(obj.quiet op hg c.mem).run_fst] at hstep
    change AtomicStep obj c.atomic _ (GuardedState.atomic ⟨c.mem, _, Function.update c.phase i _⟩)
    rw [GuardedState.atomic_update]
    exact hstep
  | @writeLock i op hi hg hl =>
    refine .inr ⟨_, rfl, ?_⟩
    have hstep := AtomicStep.of_run obj (s := c.mem) hi (by rw [GuardedState.final, hl])
    have hfinal : (⟨c.mem, .exclusive i, Function.update c.phase i (.inside op (obj.body op))⟩ :
        GuardedState ι Op σ ρ).final = ((obj.body op).run c.mem).1 := by
      simp [GuardedState.final, Phase.final]
    change AtomicStep obj c.atomic _ (GuardedState.atomic ⟨c.mem, _, Function.update c.phase i _⟩)
    rw [GuardedState.atomic_update, hfinal]
    exact hstep
  | @look i op k hi =>
    refine .inl ⟨rfl, h.atomic_inside (by simp [hi, Phase.Inside]) (fun _ => rfl) ?_ ?_⟩
    · rw [hi]
      rfl
    · rw [hi]
      rfl
  | @set i op f k hi =>
    refine .inl ⟨rfl, h.atomic_inside (by simp [hi, Phase.Inside]) (fun hq => ?_) ?_ ?_⟩
    · rw [hi] at hq
      exact hq.1
    · rw [hi]
      rfl
    · rw [hi]
      rfl
  | @readUnlock i op r l hi hl =>
    refine .inl ⟨rfl, GuardedState.atomic_unlock (p := .done r) (by rw [hi]; rfl) ?_⟩
    rw [GuardedState.final, hl]
  | @writeUnlock i op r hi hl =>
    refine .inl ⟨rfl, GuardedState.atomic_unlock (p := .done r) (by rw [hi]; rfl) ?_⟩
    simp [GuardedState.final, hl, hi, Phase.final, Body.run]

/-- The lock strands nobody: as long as a call has not returned, some thread can go on with
its call. -/
theorem GuardedState.Locked.progress (h : c.Locked) (obj : Guarded Op σ ρ)
    (hi : c.phase i ≠ .idle) :
    ∃ e c', GuardedStep obj c e c' ∧ ∀ j op, e ≠ .invoke j op := by
  by_cases hin : ∃ j, (c.phase j).Inside
  · -- the thread inside does its next statement
    obtain ⟨j, hj⟩ := hin
    cases hp : c.phase j with
    | inside op rest =>
      cases rest with
      | look k => exact ⟨_, _, .look hp, by simp⟩
      | set f k => exact ⟨_, _, .set hp, by simp⟩
      | ret r =>
        cases hl : c.lock with
        | shared l => exact ⟨_, _, .readUnlock hp hl, by simp⟩
        | exclusive k =>
          obtain rfl := h.holder hj hl
          exact ⟨_, _, .writeUnlock hp hl, by simp⟩
    | _ =>
      rw [hp] at hj
      exact hj.elim
  · have hfree : c.lock = .shared [] := by
      cases hl : c.lock with
      | exclusive k => exact absurd ⟨k, (h.exclusive k hl).1⟩ hin
      | shared l =>
        obtain ⟨_, hmem, _⟩ := h.shared l hl
        exact congrArg Holder.shared (List.eq_nil_iff_forall_not_mem.mpr fun j hj =>
          hin ⟨j, (hmem j).mp hj⟩)
    cases hp : c.phase i with
    | idle => exact absurd hp hi
    | inside op rest => exact absurd ⟨i, by rw [hp]; trivial⟩ hin
    | done r => exact ⟨_, _, .respond hp, by simp⟩
    | called op =>
      by_cases hg : obj.guard op = .shared
      · exact ⟨_, _, .readLock hp hg hfree, by simp⟩
      · exact ⟨_, _, .writeLock hp hg hfree, by simp⟩

def effects (tr : List (CallEvent ι Op ρ)) : List (Op × ρ) :=
  tr.filterMap fun | .effect _ op r => some (op, r) | _ => none

abbrev SequentialRun (obj : Guarded Op σ ρ) : σ → List (Op × ρ) → σ → Prop :=
  Run fun s x s' => Applies obj x.1 s s' x.2

/-- The calls of a run of the atomic object are a sequential execution. -/
theorem AtomicStep.sequential {s : σ} {tr : List (CallEvent ι Op ρ)} {a : AtomicState ι Op σ ρ}
    (h : Run (AtomicStep obj) (AtomicState.init s) tr a) :
    SequentialRun obj s (effects tr) a.mem := by
  refine h.simulate AtomicState.mem _ fun _ hs => ?_
  cases hs with
  | invoke op hi => exact .inl ⟨rfl, rfl⟩
  | respond hi => exact .inl ⟨rfl, rfl⟩
  | effect hi happ => exact .inr ⟨_, rfl, happ⟩

omit [DecidableEq ι] in
theorem effects_filterMap (tr : List (CallEvent ι Op ρ)) :
    effects (tr.filterMap CallEvent.visible) = effects tr := by
  rw [effects, List.filterMap_filterMap]
  refine List.filterMap_congr fun e _ => ?_
  cases e <;> rfl

/-- Every run has the history of a run of the atomic object, and its calls take effect as in
a sequential execution. -/
theorem Guarded.refines (obj : Guarded Op σ ρ) {s : σ} {tr : List (CallEvent ι Op ρ)}
    (h : Run (GuardedStep obj) (GuardedState.init s) tr c) :
    Run (AtomicStep obj) (AtomicState.init s) (tr.filterMap CallEvent.visible) c.atomic ∧
      history (tr.filterMap CallEvent.visible) = history tr ∧
      SequentialRun obj s (effects tr) c.final ∧ c.Locked := by
  have hlocked : ∀ {tr c}, Run (GuardedStep obj) (GuardedState.init s) tr c →
      GuardedState.Locked (ι := ι) c := fun h =>
    h.stateInvariant (GuardedState.Locked.init s) fun hi hs => hi.step hs
  have hatomic := h.simulate GuardedState.atomic CallEvent.visible
    fun hr hs => (hlocked hr).simulates hs
  have hseq := AtomicStep.sequential hatomic
  rw [effects_filterMap] at hseq
  exact ⟨hatomic, history_filterMap tr, hseq, hlocked h⟩

end System

end Lib
