import Mathlib.Data.List.Basic

/-!
# Computations whose requests for memory may be refused

A computation runs on a mutable state and may end by throwing.  The state reached before a throw
is kept, as it is for an exception that leaves an object half updated.  Requests for memory are
answered from a script: one decision for each request, `true` for a refusal, and every request
past the end of the script is granted.  The empty script is a run without a memory limit, and
quantifying over scripts covers every limit.
-/

namespace GoblinCore.Refusable

open List

/-- Answers to the requests for memory of a run, in order; `true` refuses. -/
abbrev Script := List Bool

/-- How a run ends: its result or what it threw, the state it leaves, the unused decisions. -/
structure Outcome (ε σ α : Type) where
  result : Except ε α
  state : σ
  script : Script

/-- A computation over the state `σ` that returns an `α` or throws an `ε`. -/
def Comp (ε σ α : Type) := σ → Script → Outcome ε σ α

variable {ε σ τ α β : Type}

namespace Comp

protected def pure (value : α) : Comp ε σ α := fun s script ↦ ⟨.ok value, s, script⟩

protected def bind (first : Comp ε σ α) (next : α → Comp ε σ β) : Comp ε σ β :=
  fun s script ↦
    match first s script with
    | ⟨.ok value, s', script'⟩ => next value s' script'
    | ⟨.error thrown, s', script'⟩ => ⟨.error thrown, s', script'⟩

instance : Monad (Comp ε σ) where
  pure := Comp.pure
  bind := Comp.bind

def get : Comp ε σ σ := fun s script ↦ ⟨.ok s, s, script⟩

def set (s : σ) : Comp ε σ Unit := fun _ script ↦ ⟨.ok (), s, script⟩

def modify (f : σ → σ) : Comp ε σ Unit := fun s script ↦ ⟨.ok (), f s, script⟩

def throw (thrown : ε) : Comp ε σ α := fun s script ↦ ⟨.error thrown, s, script⟩

/-- The handler starts from the state the throw left behind. -/
def tryCatch (body : Comp ε σ α) (handler : ε → Comp ε σ α) : Comp ε σ α :=
  fun s script ↦
    match body s script with
    | ⟨.ok value, s', script'⟩ => ⟨.ok value, s', script'⟩
    | ⟨.error thrown, s', script'⟩ => handler thrown s' script'

/-- One request for memory, throwing `thrown` when it is refused. -/
def request (thrown : ε) : Comp ε σ Unit := fun s script ↦
  match script with
  | [] => ⟨.ok (), s, []⟩
  | false :: rest => ⟨.ok (), s, rest⟩
  | true :: rest => ⟨.error thrown, s, rest⟩

/-- Ask whether memory would be granted, without throwing. -/
def allowed : Comp ε σ Bool := fun s script ↦
  match script with
  | [] => ⟨.ok true, s, []⟩
  | refused :: rest => ⟨.ok (!refused), s, rest⟩

/-- Run `body` if `condition` holds. -/
def when (condition : Prop) [Decidable condition] (body : Comp ε σ Unit) : Comp ε σ Unit :=
  if condition then body else pure ()

/-- Run a computation on a part of the state. -/
def zoom (part : σ → τ) (update : σ → τ → σ) (body : Comp ε τ α) : Comp ε σ α :=
  fun s script ↦
    let inner := body (part s) script
    ⟨inner.result, update s inner.state, inner.script⟩

/-- Run a computation for its effect. -/
def discard (body : Comp ε σ α) : Comp ε σ Unit := do
  let _ ← body

/-- Run a computation on a value of its own and return that value; the state is not touched. -/
def scratch (init : τ) (body : Comp ε τ α) : Comp ε σ (α × τ) := fun s script ↦
  let inner := body init script
  ⟨inner.result.map fun result ↦ (result, inner.state), s, inner.script⟩

/-! ## Running -/

section

variable (s s' : σ) (script : Script)

@[simp] theorem pure_apply (value : α) :
    (pure value : Comp ε σ α) s script = ⟨.ok value, s, script⟩ := rfl

@[simp] theorem get_apply : (get : Comp ε σ σ) s script = ⟨.ok s, s, script⟩ := rfl

@[simp] theorem set_apply : (set s' : Comp ε σ Unit) s script = ⟨.ok (), s', script⟩ := rfl

@[simp] theorem modify_apply (f : σ → σ) :
    (modify f : Comp ε σ Unit) s script = ⟨.ok (), f s, script⟩ := rfl

@[simp] theorem throw_apply (thrown : ε) :
    (throw thrown : Comp ε σ α) s script = ⟨.error thrown, s, script⟩ := rfl

@[simp] theorem request_nil (thrown : ε) :
    (request thrown : Comp ε σ Unit) s [] = ⟨.ok (), s, []⟩ := rfl

@[simp] theorem request_granted {thrown : ε} :
    (request thrown : Comp ε σ Unit) s (false :: script) = ⟨.ok (), s, script⟩ := rfl

@[simp] theorem request_refused (thrown : ε) :
    (request thrown : Comp ε σ Unit) s (true :: script) = ⟨.error thrown, s, script⟩ := rfl

theorem bind_apply (first : Comp ε σ α) (next : α → Comp ε σ β) :
    (first >>= next) s script =
      match first s script with
      | ⟨.ok value, s', script'⟩ => next value s' script'
      | ⟨.error thrown, s', script'⟩ => ⟨.error thrown, s', script'⟩ := rfl

@[simp] theorem get_bind (next : σ → Comp ε σ β) : (get >>= next) s script = next s s script := rfl

@[simp] theorem set_bind (next : Unit → Comp ε σ β) :
    (set s' >>= next) s script = next () s' script := rfl

@[simp] theorem modify_bind (f : σ → σ) (next : Unit → Comp ε σ β) :
    (modify f >>= next) s script = next () (f s) script := rfl

@[simp] theorem pure_bind (value : α) (next : α → Comp ε σ β) :
    ((pure value : Comp ε σ α) >>= next) s script = next value s script := rfl

@[simp] theorem throw_bind (thrown : ε) (next : α → Comp ε σ β) :
    ((throw thrown : Comp ε σ α) >>= next) s script = ⟨.error thrown, s, script⟩ := rfl

end

variable {body first : Comp ε σ α} {next : α → Comp ε σ β} {handler : ε → Comp ε σ α} {value : α}
  {thrown : ε} {part : σ → τ} {update : σ → τ → σ} {condition : Prop} [Decidable condition]

variable {s s' : σ} {script script' : Script}

/-- A step that returned hands its value and state on. -/
theorem bind_ok (h : first s script = ⟨.ok value, s', script'⟩) :
    (first >>= next) s script = next value s' script' := by
  rw [bind_apply, h]

/-- A step that threw ends the whole run in the state it left. -/
theorem bind_error (h : first s script = ⟨.error thrown, s', script'⟩) :
    (first >>= next) s script = ⟨.error thrown, s', script'⟩ := by
  rw [bind_apply, h]

theorem bind_assoc {γ : Type} (second : α → Comp ε σ β) (third : β → Comp ε σ γ) :
    (first >>= second) >>= third = first >>= fun value ↦ second value >>= third := by
  funext s script
  rcases hrun : first s script with ⟨result, s', rest⟩
  cases result with
  | ok value => rw [bind_ok hrun, bind_apply, bind_ok hrun, bind_apply]
  | error thrown => rw [bind_error (bind_error hrun), bind_error hrun]

theorem when_pos (h : condition) (body : Comp ε σ Unit) : when condition body = body := if_pos h

theorem when_neg (h : ¬condition) (body : Comp ε σ Unit) : when condition body = pure () :=
  if_neg h

/-- What holds of the body and of doing nothing holds of a conditional step. -/
theorem when_of {P : Comp ε σ Unit → Prop} {body : Comp ε σ Unit} (h : P body)
    (hskip : P (pure ())) : P (when condition body) := by
  unfold when
  split
  · exact h
  · exact hskip

theorem tryCatch_ok (h : body s script = ⟨.ok value, s', script'⟩) :
    tryCatch body handler s script = ⟨.ok value, s', script'⟩ := by
  simp only [tryCatch, h]

theorem tryCatch_error (h : body s script = ⟨.error thrown, s', script'⟩) :
    tryCatch body handler s script = handler thrown s' script' := by
  simp only [tryCatch, h]

theorem zoom_eq {body : Comp ε τ α} {inner : τ} {result : Except ε α}
    (h : body (part s) script = ⟨result, inner, script'⟩) :
    zoom part update body s script = ⟨result, update s inner, script'⟩ := by
  simp only [zoom, h]

/-- A step that only dresses the value. -/
theorem bind_pure_apply (value : α → β) :
    (body >>= fun result ↦ pure (value result)) s script =
      ⟨(body s script).result.map value, (body s script).state, (body s script).script⟩ := by
  rcases hrun : body s script with ⟨result, s', rest⟩
  cases result with
  | ok result => rw [bind_ok hrun]; rfl
  | error thrown => rw [bind_error hrun]; rfl

/-! ## Postconditions

`Ends body s script Q E` says how the run of `body` from `s` under `script` ends: with a value and
a state in `Q`, or with a throw and a state in `E`.  The decisions it leaves are a suffix of those
it was given, so a refusal met by a later step is a refusal of the whole script. -/

def Ends (body : Comp ε σ α) (s : σ) (script : Script) (Q : α → σ → Prop) (E : ε → σ → Prop) :
    Prop :=
  (body s script).script <:+ script ∧
    match (body s script).result with
    | .ok value => Q value (body s script).state
    | .error thrown => E thrown (body s script).state

section Rules

variable {Q P : α → σ → Prop} {E F : ε → σ → Prop} {R : β → σ → Prop} {rest : Script}

theorem ends_of_ok (hrun : body s script = ⟨.ok value, s', rest⟩) (hsuf : rest <:+ script)
    (h : Q value s') : Ends body s script Q E := by
  unfold Ends
  rw [hrun]
  exact ⟨hsuf, h⟩

theorem ends_of_error (hrun : body s script = ⟨.error thrown, s', rest⟩) (hsuf : rest <:+ script)
    (h : E thrown s') : Ends body s script Q E := by
  unfold Ends
  rw [hrun]
  exact ⟨hsuf, h⟩

section

variable (h : Ends body s script Q E)
include h

/-- The two ways a run can end. -/
theorem Ends.run : ∃ rest, rest <:+ script ∧
    ((∃ value s', body s script = ⟨.ok value, s', rest⟩ ∧ Q value s') ∨
      ∃ thrown s', body s script = ⟨.error thrown, s', rest⟩ ∧ E thrown s') := by
  obtain ⟨hsuf, hend⟩ := h
  rcases hrun : body s script with ⟨result, s', rest⟩
  rw [hrun] at hsuf hend
  cases result with
  | ok value => exact ⟨rest, hsuf, .inl ⟨value, s', rfl, hend⟩⟩
  | error thrown => exact ⟨rest, hsuf, .inr ⟨thrown, s', rfl, hend⟩⟩

theorem Ends.mono (hval : ∀ value s', Q value s' → P value s')
    (hthrow : ∀ thrown s', E thrown s' → F thrown s') : Ends body s script P F := by
  obtain ⟨rest, hsuf, ⟨value, s', hrun, hend⟩ | ⟨thrown, s', hrun, hend⟩⟩ := h.run
  · exact ends_of_ok hrun hsuf (hval _ _ hend)
  · exact ends_of_error hrun hsuf (hthrow _ _ hend)

theorem Ends.mono_throw (hthrow : ∀ thrown s', E thrown s' → F thrown s') :
    Ends body s script Q F :=
  h.mono (fun _ _ hval ↦ hval) hthrow

theorem Ends.mono_ok (hval : ∀ value s', Q value s' → P value s') : Ends body s script P E :=
  h.mono hval fun _ _ hthrow ↦ hthrow

/-- What a postcondition says of a run that is known to have returned. -/
theorem Ends.of_ok (hrun : body s script = ⟨.ok value, s', rest⟩) : Q value s' := by
  have hend := h.2
  rw [hrun] at hend
  exact hend

theorem Ends.of_error (hrun : body s script = ⟨.error thrown, s', rest⟩) : E thrown s' := by
  have hend := h.2
  rw [hrun] at hend
  exact hend

end

theorem ends_pure (h : Q value s) : Ends (pure value) s script Q E :=
  ⟨suffix_rfl, h⟩

theorem ends_set {Q : Unit → σ → Prop} (h : Q () s') : Ends (set s') s script Q E :=
  ⟨suffix_rfl, h⟩

theorem ends_modify {Q : Unit → σ → Prop} {f : σ → σ} (h : Q () (f s)) :
    Ends (modify f) s script Q E := ⟨suffix_rfl, h⟩

theorem ends_throw (h : E thrown s) : Ends (throw thrown) s script Q E :=
  ⟨suffix_rfl, h⟩

/-- A first step whose run is known. -/
theorem ends_ok_bind (hrun : first s script = ⟨.ok value, s', rest⟩) (hsuf : rest <:+ script)
    (hnext : Ends (next value) s' rest R E) : Ends (first >>= next) s script R E := by
  unfold Ends
  rw [bind_ok hrun]
  exact ⟨hnext.1.trans hsuf, hnext.2⟩

/-- The sequencing rule when what follows depends on how the first step ran. -/
theorem Ends.bind_run (h : Ends first s script Q E)
    (herr : ∀ thrown s' rest, first s script = ⟨.error thrown, s', rest⟩ → E thrown s' → F thrown
      s') (hnext : ∀ value s' rest, first s script = ⟨.ok value, s', rest⟩ → Q value s' → Ends (next
      value) s' rest R F) : Ends (first >>= next) s script R F := by
  obtain ⟨rest, hsuf, ⟨value, s', hrun, hend⟩ | ⟨thrown, s', hrun, hend⟩⟩ := h.run
  · exact ends_ok_bind hrun hsuf (hnext value s' rest hrun hend)
  · exact ends_of_error (bind_error hrun) hsuf (herr thrown s' rest hrun hend)

/-- The sequencing rule. -/
theorem Ends.bind (h : Ends first s script Q E)
    (hnext : ∀ value s' rest, rest <:+ script → Q value s' → Ends (next value) s' rest R E) :
    Ends (first >>= next) s script R E := by
  apply h.bind_run
  · intro thrown s' rest _ hend
    exact hend
  · intro value s' rest hrun hend
    have hsuf := h.1
    rw [hrun] at hsuf
    exact hnext value s' rest hsuf hend

theorem ends_when {body : Comp ε σ Unit} {Q : Unit → σ → Prop}
    (hrun : condition → Ends body s script Q E) (hskip : ¬condition → Q () s) :
    Ends (when condition body) s script Q E := by
  unfold when
  split
  · exact hrun ‹_›
  · exact ends_pure (hskip ‹_›)

/-- A guard that throws before the rest of the computation. -/
theorem ends_guard_bind {next : Unit → Comp ε σ β} (hthrow : condition → E thrown s)
    (hnext : ¬condition → Ends (next ()) s script R E) :
    Ends (when condition (throw thrown) >>= next) s script R E := by
  by_cases hcondition : condition
  · simp only [when, hcondition, if_true]
    exact ⟨suffix_rfl, hthrow hcondition⟩
  · simp only [when, hcondition, if_false]
    exact hnext hcondition

theorem ends_get_bind {next : σ → Comp ε σ β} (h : Ends (next s) s script R E) :
    Ends (get >>= next) s script R E := h

theorem ends_modify_bind {f : σ → σ} {next : Unit → Comp ε σ β}
    (h : Ends (next ()) (f s) script R E) : Ends (modify f >>= next) s script R E := h

theorem ends_set_bind {next : Unit → Comp ε σ β} (h : Ends (next ()) s' script R E) :
    Ends (set s' >>= next) s script R E := h

/-- A request is refused exactly when the first decision is a refusal. -/
theorem ends_request_head {Q : Unit → σ → Prop} (hgrant : Q () s)
    (hrefuse : script.head? = some true → E thrown s) : Ends (request thrown) s script Q E := by
  match script with
  | [] => exact ⟨suffix_rfl, hgrant⟩
  | false :: rest => exact ⟨suffix_cons false rest, hgrant⟩
  | true :: rest => exact ⟨suffix_cons true rest, hrefuse rfl⟩

theorem ends_request {Q : Unit → σ → Prop} (hgrant : Q () s)
    (hrefuse : true ∈ script → E thrown s) :
    Ends (request thrown) s script Q E :=
  ends_request_head hgrant fun hhead ↦ hrefuse (mem_of_head? hhead)

theorem ends_request_bind {next : Unit → Comp ε σ β}
    (hrefuse : script.head? = some true → E thrown s)
    (hnext : script.head? ≠ some true → Ends (next ()) s script.tail R E) :
    Ends (request thrown >>= next) s script R E := by
  match script with
  | [] => exact hnext (by simp)
  | false :: rest =>
    have hlast := hnext (by simp)
    exact ⟨hlast.1.trans (suffix_cons false rest), hlast.2⟩
  | true :: rest => exact ⟨suffix_cons true rest, hrefuse rfl⟩

theorem ends_allowed {Q : Bool → σ → Prop} (h : ∀ answer, Q answer s) :
    Ends allowed s script Q E := by
  match script with
  | [] => exact ⟨suffix_rfl, h true⟩
  | refused :: rest => exact ⟨suffix_cons refused rest, h (!refused)⟩

/-- The handler must reach the same postcondition from whatever state the throw left. -/
theorem Ends.tryCatch (h : Ends body s script Q F)
    (hhandler : ∀ thrown s' rest, rest <:+ script → F thrown s' →
      Ends (handler thrown) s' rest Q E) :
    Ends (tryCatch body handler) s script Q E := by
  obtain ⟨rest, hsuf, ⟨value, s', hrun, hend⟩ | ⟨thrown, s', hrun, hend⟩⟩ := h.run
  · exact ends_of_ok (tryCatch_ok hrun) hsuf hend
  · obtain ⟨hrest, hlast⟩ := hhandler thrown s' rest hsuf hend
    unfold Ends
    rw [tryCatch_error hrun]
    exact ⟨hrest.trans hsuf, hlast⟩

theorem Ends.zoom {body : Comp ε τ α} {Qin : α → τ → Prop} {Ein : ε → τ → Prop}
    (h : Ends body (part s) script Qin Ein)
    (hval : ∀ value inner, Qin value inner → Q value (update s inner))
    (hthrow : ∀ thrown inner, Ein thrown inner → E thrown (update s inner)) :
    Ends (Comp.zoom part update body) s script Q E := by
  obtain ⟨rest, hsuf, ⟨value, inner, hrun, hend⟩ | ⟨thrown, inner, hrun, hend⟩⟩ := h.run
  · exact ends_of_ok (zoom_eq hrun) hsuf (hval _ _ hend)
  · exact ends_of_error (zoom_eq hrun) hsuf (hthrow _ _ hend)

theorem Ends.of_result (h : Ends body s script Q E)
    (hres : (body s script).result = .error thrown) : E thrown (body s script).state := by
  have hend := h.2
  rw [hres] at hend
  exact hend

/-- The run of `body` from `s` under `script` ends with a throw. -/
def Throws (body : Comp ε σ α) (s : σ) (script : Script) : Prop :=
  ∃ thrown, (body s script).result = .error thrown

theorem Ends.of_throws (h : Ends body s script Q E) (hthrows : Throws body s script) :
    ∃ thrown, E thrown (body s script).state := by
  rcases hthrows with ⟨thrown, hres⟩
  exact ⟨thrown, h.of_result hres⟩

theorem Ends.of_not_throws (h : Ends body s script Q E) (hthrows : ¬Throws body s script) :
    ∃ value, (body s script).result = .ok value ∧ Q value (body s script).state := by
  obtain ⟨rest, -, ⟨value, s', hrun, hend⟩ | ⟨thrown, s', hrun, -⟩⟩ := h.run
  · rw [hrun]
    exact ⟨value, rfl, hend⟩
  · exact absurd ⟨thrown, by rw [hrun]⟩ hthrows

theorem Ends.returned (h : Ends body s script Q fun _ _ ↦ False) : ¬Throws body s script ∧
    ∃ value, (body s script).result = .ok value ∧ Q value (body s script).state := by
  have hreturns : ¬Throws body s script := fun hthrows ↦ (h.of_throws hthrows).elim fun _ ↦ id
  exact ⟨hreturns, h.of_not_throws hreturns⟩

theorem throws_bind_iff :
    Throws (first >>= next) s script ↔ Throws first s script ∨
      ∃ value, (first s script).result = .ok value ∧
        Throws (next value) (first s script).state (first s script).script := by
  unfold Throws
  rcases hrun : first s script with ⟨result, s', rest⟩
  cases result with
  | ok value =>
    rw [bind_ok hrun]
    simp
  | error thrown =>
    rw [bind_error hrun]
    simp

theorem throws_congr {body' : Comp ε σ α} (h : body s script = body' s' script) :
    Throws body s script ↔ Throws body' s' script := by
  unfold Throws
  rw [h]

/-- Returning after a step throws exactly when the step does. -/
theorem throws_bind_pure_iff {value : α → β} :
    Throws (first >>= fun result ↦ pure (value result)) s script ↔ Throws first s script := by
  rw [throws_bind_iff]
  simp [Throws]

theorem Ends.discard {P : σ → Prop} (h : Ends body s script (fun _ ↦ P) E) :
    Ends (discard body) s script (fun _ ↦ P) E := by
  apply h.bind
  intro _ s' rest _ hend
  exact ends_pure hend

/-- A computation on a value of its own. -/
theorem Ends.scratch {body : Comp ε τ α} {init : τ} {Q : α → τ → Prop} {F : ε → τ → Prop}
    {R : α × τ → σ → Prop} (h : Ends body init script Q F)
    (hval : ∀ value inner, Q value inner → R (value, inner) s)
    (hthrow : ∀ thrown inner, F thrown inner → E thrown s) :
    Ends (scratch init body) s script R E := by
  have hscratch : ∀ {result inner rest}, body init script = ⟨result, inner, rest⟩ →
      (Comp.scratch init body : Comp ε σ _) s script =
        ⟨result.map fun value ↦ (value, inner), s, rest⟩ := fun hrun ↦
          by simp only [Comp.scratch, hrun]
  obtain ⟨rest, hsuf, ⟨value, inner, hrun, hend⟩ | ⟨thrown, inner, hrun, hend⟩⟩ := h.run
  · exact ends_of_ok (hscratch hrun) hsuf (hval value inner hend)
  · exact ends_of_error (hscratch hrun) hsuf (hthrow thrown inner hend)

/-- How a run ends when nothing is refused. -/
theorem Ends.cases (h : Ends body s [] Q E) :
    (∃ value s', body s [] = ⟨.ok value, s', []⟩ ∧ Q value s') ∨
      ∃ thrown s', body s [] = ⟨.error thrown, s', []⟩ ∧ E thrown s' := by
  obtain ⟨rest, hsuf, hend⟩ := h.run
  obtain rfl : rest = [] := suffix_nil.mp hsuf
  exact hend

/-- A run that may throw only on a refusal returns when nothing is refused. -/
theorem Ends.granted (h : Ends body s [] Q (fun _ _ ↦ False)) :
    ∃ value s', body s [] = ⟨.ok value, s', []⟩ ∧ Q value s' :=
  h.cases.resolve_right fun ⟨_, _, _, hfalse⟩ ↦ hfalse

end Rules

/-! ## Runs without refusals -/

/-- The computation returns, from whatever state, when nothing is refused. -/
def Returns (body : Comp ε σ α) : Prop := ∀ s, ∃ value s', body s [] = ⟨.ok value, s', []⟩

section Returns

theorem returns_pure : Returns (pure value : Comp ε σ α) := fun s ↦ ⟨value, s, rfl⟩

theorem returns_get : Returns (get : Comp ε σ σ) := fun s ↦ ⟨s, s, rfl⟩

theorem returns_set : Returns (set s : Comp ε σ Unit) := fun _ ↦ ⟨(), s, rfl⟩

theorem returns_modify {f : σ → σ} : Returns (modify f : Comp ε σ Unit) := fun s ↦ ⟨(), f s, rfl⟩

theorem returns_request : Returns (request thrown : Comp ε σ Unit) :=
  fun s ↦ ⟨(), s, rfl⟩

theorem returns_allowed : Returns (allowed : Comp ε σ Bool) := fun s ↦ ⟨true, s, rfl⟩

theorem Returns.bind (h : Returns first) (hnext : ∀ value, Returns (next value)) :
    Returns (first >>= next) := by
  intro s
  obtain ⟨value, s', hfst⟩ := h s
  rw [bind_ok hfst]
  exact hnext value s'

theorem Returns.when {body : Comp ε σ Unit} (h : Returns body) :
    Returns (Comp.when condition body) := when_of h returns_pure

theorem Returns.tryCatch (h : Returns body) : Returns (Comp.tryCatch body handler) := by
  intro s
  obtain ⟨value, s', hbody⟩ := h s
  exact ⟨value, s', tryCatch_ok hbody⟩

theorem Returns.zoom {body : Comp ε τ α} (h : Returns body) :
    Returns (Comp.zoom part update body) := by
  intro s
  obtain ⟨value, inner, hbody⟩ := h (part s)
  exact ⟨value, update s inner, zoom_eq hbody⟩

/-- What a computation that returns has to be shown to reach. -/
theorem Ends.of_returns {Q : α → σ → Prop} {E F : ε → σ → Prop} (h : Ends body s [] Q E)
    (hreturns : Returns body) : Ends body s [] Q F := by
  obtain ⟨value, s', hbody⟩ := hreturns s
  exact ends_of_ok hbody suffix_rfl (h.of_ok hbody)

end Returns

end Comp

/-! ## Results without a state -/

/-- A result with a property, or a throw under a condition. -/
def Yields (result : Except ε α) (refused : Prop) (P : α → Prop) : Prop :=
  match result with
  | .ok value => P value
  | .error _ => refused

namespace Yields

variable {result : Except ε α} {refused refused' : Prop} {P : α → Prop}

theorem mono {Q : α → Prop} (h : Yields result refused P) (hthrow : refused → refused')
    (hval : ∀ value, P value → Q value) : Yields result refused' Q := by
  cases result with
  | ok value => exact hval value h
  | error _ => exact hthrow h

theorem bind {next : α → Except ε β} {R : β → Prop} (h : Yields result refused P)
    (hthrow : refused → refused') (hnext : ∀ value, P value → Yields (next value) refused' R) :
    Yields (result >>= next) refused' R := by
  cases result with
  | ok value => exact hnext value h
  | error _ => exact hthrow h

theorem ok (h : Yields result refused P) (hgranted : ¬refused) :
    ∃ value, result = .ok value ∧ P value := by
  cases result with
  | ok value => exact ⟨value, rfl, h⟩
  | error _ => exact absurd h hgranted

end Yields

end GoblinCore.Refusable
