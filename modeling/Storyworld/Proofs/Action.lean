namespace Storyworld

/-!
# What an action leads to

Many operations are actions that read and change a state and may be refused. `After` says
what holds once an action has been taken: one thing of its value and the state when it goes
through, another of the error and the state when it is refused. There is one law for each way
in which actions are put together, so what holds after a compound action is computed from
its parts; for a loop an invariant is given.
-/

namespace Action

variable {ε σ α β : Type}

/-- What holds after an action taken in a state: `done` of its value and the new state, or
`refused` of the error and the new state. -/
def After (act : EStateM ε σ α) (s : σ) (done : α → σ → Prop) (refused : ε → σ → Prop) : Prop :=
  match act s with
  | .ok a t => done a t
  | .error e t => refused e t

/-- The state after an action, whether it went through or not. -/
def stateAfter (act : EStateM ε σ α) (s : σ) : σ :=
  match act s with
  | .ok _ t | .error _ t => t

/-- The value of an action, if it goes through. -/
def value? (act : EStateM ε σ α) (s : σ) : Option α :=
  match act s with
  | .ok a _ => some a
  | .error _ _ => none

/-- The answer of an action: its value, or the error it is refused with. -/
def answer (act : EStateM ε σ α) (s : σ) : Except ε α :=
  match act s with
  | .ok a _ => .ok a
  | .error e _ => .error e

variable {act : EStateM ε σ α} {s t : σ} {done : α → σ → Prop} {refused : ε → σ → Prop}

/-- What is known after an action may be weakened, on both ways out. -/
theorem After.mono {done' : α → σ → Prop} {refused' : ε → σ → Prop}
    (h : After act s done refused) (hdone : ∀ a t, done a t → done' a t)
    (hrefused : ∀ e t, refused e t → refused' e t) : After act s done' refused' := by
  unfold After at h ⊢
  split at h
  · exact hdone _ _ h
  · exact hrefused _ _ h

/-- The same where only what holds of a result is weakened. -/
theorem After.imp_done {done' : α → σ → Prop} (h : After act s done refused)
    (hdone : ∀ a t, done a t → done' a t) : After act s done' refused :=
  h.mono hdone fun _ _ he => he

/-- An action that is never refused leads to whatever follows from what it does. -/
theorem After.imp {done' : α → σ → Prop} (h : After act s done fun _ _ => False)
    (hdone : ∀ a t, done a t → done' a t) : After act s done' refused :=
  h.mono hdone fun _ _ he => he.elim

/-- An action that never goes through leads to whatever follows from how it is refused. -/
theorem After.imp_refused {refused' : ε → σ → Prop} (h : After act s (fun _ _ => False) refused)
    (hrefused : ∀ e t, refused e t → refused' e t) : After act s done refused' :=
  h.mono (fun _ _ hfalse => hfalse.elim) hrefused

/-- Two things that are known after an action hold there together. -/
theorem After.and {done' : α → σ → Prop} {refused' : ε → σ → Prop}
    (h : After act s done refused) (h' : After act s done' refused') :
    After act s (fun a t => done a t ∧ done' a t) (fun e t => refused e t ∧ refused' e t) := by
  unfold After at h h' ⊢
  split at h <;> simp_all only [and_self]

/-- What holds of every result holds of the result that there is. -/
theorem After.of_ok {a : α} (h : After act s done refused) (hact : act s = .ok a t) : done a t := by
  unfold After at h
  rwa [hact] at h

/-- What holds of every refusal holds of the one that there is. -/
theorem After.of_error {e : ε} (h : After act s done refused) (hact : act s = .error e t) :
    refused e t := by
  unfold After at h
  rwa [hact] at h

/-- An action that is never refused goes through. -/
theorem After.exists_ok (h : After act s done fun _ _ => False) :
    ∃ a t, act s = .ok a t ∧ done a t := by
  unfold After at h
  cases hact : act s with
  | ok a t =>
    rw [hact] at h
    exact ⟨a, t, rfl, h⟩
  | error e t =>
    rw [hact] at h
    exact h.elim

/-- What holds when the action goes through may be told by how it does. -/
theorem After.eq_ok (h : After act s done refused) :
    After act s (fun a t => act s = .ok a t ∧ done a t) refused := by
  unfold After at h ⊢
  cases hact : act s with
  | ok a t =>
    rw [hact] at h
    exact ⟨rfl, h⟩
  | error e t =>
    rw [hact] at h
    exact h

/-- What holds of the state on both ways out holds of the state after the action. -/
theorem After.stateAfter {P : σ → Prop} (h : After act s (fun _ t => P t) (fun _ t => P t)) :
    P (stateAfter act s) := by
  unfold After at h
  unfold Action.stateAfter
  split at h <;> exact h

theorem stateAfter_of_ok {a : α} (h : act s = .ok a t) : stateAfter act s = t := by
  unfold stateAfter
  rw [h]

theorem toOption_answer (act : EStateM ε σ α) (s : σ) : (answer act s).toOption = value? act s := by
  unfold answer value?
  cases act s <;> rfl

/-- An action is known by its value and the state after it. -/
theorem eq_ok_of_value? {a : α} (h : value? act s = some a) : act s = .ok a (stateAfter act s) := by
  unfold value? at h
  unfold Action.stateAfter
  cases hact : act s with
  | ok b t =>
    rw [hact] at h
    rw [Option.some.inj h]
  | error e t =>
    rw [hact] at h
    cases h

/-- An action without a value was refused. -/
theorem eq_error_of_value? (h : value? act s = none) : ∃ e, act s = .error e (stateAfter act s) := by
  unfold value? at h
  unfold stateAfter
  cases hact : act s with
  | ok b t =>
    rw [hact] at h
    cases h
  | error e t => exact ⟨e, rfl⟩

/-- What holds of the state after an action, if it goes through. -/
theorem after_of_isSome {P : σ → Prop} (h : (value? act s).isSome → P (stateAfter act s)) :
    After act s (fun _ t => P t) fun _ _ => True := by
  unfold value? Action.stateAfter at h
  unfold After
  cases hact : act s with
  | ok a t =>
    rw [hact] at h
    exact h rfl
  | error e t => trivial

/-- A compound action goes through if its parts do, one after the other. -/
theorem bind_eq_ok {next : α → EStateM ε σ β} {b : β} :
    (act >>= next) s = .ok b t ↔ ∃ a u, act s = .ok a u ∧ next a u = .ok b t := by
  show EStateM.bind act next s = _ ↔ _
  unfold EStateM.bind
  cases act s with
  | error e u => exact ⟨nofun, fun ⟨_, _, h, _⟩ => nomatch h⟩
  | ok a u =>
    refine ⟨fun h => ⟨a, u, rfl, h⟩, ?_⟩
    rintro ⟨a', u', hact, hnext⟩
    cases hact
    exact hnext

/-! ### One law for each way to build an action -/

theorem after_pure {a : α} : After (pure a) s done refused ↔ done a s := Iff.rfl

/-- A refusal leaves the state as it is. -/
theorem after_throw {e : ε} : After (throw e) s done refused ↔ refused e s := Iff.rfl

theorem after_get {done : σ → σ → Prop} : After get s done refused ↔ done s s := Iff.rfl

/-- What is read off and what is changed come from the same state. -/
theorem after_modifyGet {f : σ → α × σ} :
    After (modifyGet f) s done refused ↔ done (f s).1 (f s).2 := Iff.rfl

theorem after_modify {f : σ → σ} {done : PUnit → σ → Prop} :
    After (modify f) s done refused ↔ done ⟨⟩ (f s) := Iff.rfl

/-- An action and then another: what is to hold after both has to hold after the second, in whatever
state the first goes through to. A refusal of the first is one of the whole. -/
theorem after_bind {next : α → EStateM ε σ β} {done : β → σ → Prop} :
    After (act >>= next) s done refused ↔
      After act s (fun a t => After (next a) t done refused) refused := by
  show (match EStateM.bind act next s with
    | .ok a t => done a t
    | .error e t => refused e t) ↔ _
  unfold After EStateM.bind
  cases act s <;> rfl

/-- A result from outside is taken over without a look at the state. -/
theorem after_ofExcept {x : Except ε α} :
    After (ofExcept x) s done refused ↔
      match x with
      | .ok a => done a s
      | .error e => refused e s := by
  cases x <;> rfl

/-- A refusal that is caught does not take the state back: what handles it goes on from the state in
which the action was refused. -/
theorem after_tryCatch {handle : ε → EStateM ε σ α} :
    After (tryCatch act handle) s done refused ↔
      After act s done (fun e t => After (handle e) t done refused) := by
  show (match EStateM.tryCatch act handle s with
    | .ok a t => done a t
    | .error e t => refused e t) ↔ _
  unfold After EStateM.tryCatch
  cases act s <;> rfl

/-- A choice between two actions is settled before either is taken. -/
theorem after_ite {c : Prop} [Decidable c] {no : EStateM ε σ α} :
    After (if c then act else no) s done refused ↔
      if c then After act s done refused else After no s done refused := by
  split <;> rfl

/-- A loop keeps an invariant, which may speak of the items that are done. -/
theorem after_forM {f : α → EStateM ε σ PUnit} {I : List α → σ → Prop} {xs : List α}
    (hstep : ∀ ys x zs, xs = ys ++ x :: zs → ∀ t, I ys t →
      After (f x) t (fun _ u => I (ys ++ [x]) u) refused)
    (hs : I [] s) : After (xs.forM f) s (fun _ t => I xs t) refused := by
  -- the induction is on the items to come, with those that are done beside them
  have run : ∀ zs ys, xs = ys ++ zs → ∀ t, I ys t →
      After (zs.forM f) t (fun _ u => I xs u) refused := by
    intro zs
    induction zs with
    | nil =>
      intro ys hxs t ht
      rw [List.append_nil] at hxs
      exact after_pure.2 (hxs ▸ ht)
    | cons z zs ih =>
      intro ys hxs t ht
      refine after_bind.2 ((hstep ys z zs hxs t ht).mono (fun _ u hu => ?_) fun _ _ h => h)
      exact ih (ys ++ [z]) (by rw [hxs, List.append_assoc]; rfl) u hu
  exact run xs [] rfl s hs

/-! ### What actions preserve -/

/-- What holds of the state before an action holds of the state after it, whether the action
goes through or not. -/
def Preserves (P : σ → Prop) (act : EStateM ε σ α) : Prop :=
  ∀ s, P s → After act s (fun _ t => P t) (fun _ t => P t)

variable {P : σ → Prop}

/-- An invariant that is kept holds of the state after the action. -/
theorem Preserves.stateAfter (h : Preserves P act) (hs : P s) : P (stateAfter act s) :=
  (h s hs).stateAfter

theorem preserves_pure (a : α) : Preserves P (pure a : EStateM ε σ α) := fun _ hs => hs

theorem preserves_throw (e : ε) : Preserves P (throw e : EStateM ε σ α) := fun _ hs => hs

theorem preserves_get : Preserves P (get : EStateM ε σ σ) := fun _ hs => hs

theorem preserves_ofExcept (x : Except ε α) : Preserves P (ofExcept x : EStateM ε σ α) := by
  intro s hs
  rw [after_ofExcept]
  cases x <;> exact hs

/-- A single step keeps what its change of the state keeps. -/
theorem preserves_modifyGet {f : σ → α × σ} (h : ∀ s, P s → P (f s).2) :
    Preserves P (modifyGet f : EStateM ε σ α) := h

theorem preserves_modify {f : σ → σ} (h : ∀ s, P s → P (f s)) :
    Preserves P (modify f : EStateM ε σ PUnit) := h

/-- An invariant is kept by two actions in a row if each of them keeps it. -/
theorem Preserves.bind (h : Preserves P act) {next : α → EStateM ε σ β}
    (hnext : ∀ a, Preserves P (next a)) : Preserves P (act >>= next) := by
  intro s hs
  rw [after_bind]
  exact (h s hs).mono (fun a t ht => hnext a t ht) fun _ _ ht => ht

/-- An invariant is kept by an action that is caught, as it holds in the state of the refusal
too. -/
theorem Preserves.tryCatch (h : Preserves P act) {handle : ε → EStateM ε σ α}
    (hhandle : ∀ e, Preserves P (handle e)) : Preserves P (tryCatch act handle) := by
  intro s hs
  rw [after_tryCatch]
  exact (h s hs).mono (fun _ _ ht => ht) fun e t ht => hhandle e t ht

/-- A loop keeps what each of its steps keeps. -/
theorem preserves_forM {f : α → EStateM ε σ PUnit} {xs : List α}
    (h : ∀ x ∈ xs, Preserves P (f x)) : Preserves P (xs.forM f) := by
  intro s hs
  refine after_forM (I := fun _ => P) (fun ys x zs hxs t ht => ?_) hs
  exact h x (by rw [hxs]; simp) t ht

/-! ### What actions maintain -/

/-- As long as nothing is refused the invariant is kept. Where something is refused, `Q` is left of
it. -/
def Maintains (P Q : σ → Prop) (act : EStateM ε σ α) : Prop :=
  ∀ s, P s → After act s (fun _ t => P t) (fun _ t => Q t)

variable {Q : σ → Prop}

/-- What is kept whether or not there is a refusal is kept as long as there is none. -/
theorem Preserves.maintains (h : Preserves P act) (hPQ : ∀ s, P s → Q s) : Maintains P Q act :=
  fun s hs => (h s hs).mono (fun _ _ ht => ht) fun _ t ht => hPQ t ht

theorem maintains_pure (a : α) : Maintains P Q (pure a : EStateM ε σ α) := fun _ hs => hs

theorem maintains_throw (hPQ : ∀ s, P s → Q s) (e : ε) :
    Maintains P Q (throw e : EStateM ε σ α) := fun s hs => hPQ s hs

theorem maintains_ofExcept (hPQ : ∀ s, P s → Q s) (x : Except ε α) :
    Maintains P Q (ofExcept x : EStateM ε σ α) := (preserves_ofExcept x).maintains hPQ

/-- The second action is only reached when the first has kept the invariant. -/
theorem Maintains.bind (h : Maintains P Q act) {next : α → EStateM ε σ β}
    (hnext : ∀ a, Maintains P Q (next a)) : Maintains P Q (act >>= next) :=
  fun s hs => after_bind.2 ((h s hs).imp_done fun a t ht => hnext a t ht)

/-- What is done with the state that was read may depend on it. -/
theorem maintains_get {next : σ → EStateM ε σ α} (h : ∀ s, P s → Maintains P Q (next s)) :
    Maintains P Q (get >>= next) :=
  fun s hs => after_bind.2 (after_get.2 (h s hs s hs))

/-- After a result from outside the next action is taken in the state as it was, with a value that
is known to be the result. -/
theorem maintains_ofExcept_bind (hPQ : ∀ s, P s → Q s) {x : Except ε α}
    {next : α → EStateM ε σ β} (h : ∀ a, x = .ok a → Maintains P Q (next a)) :
    Maintains P Q (ofExcept x >>= next) := by
  intro s hs
  refine after_bind.2 (after_ofExcept.2 ?_)
  cases x with
  | error e => exact hPQ s hs
  | ok a => exact h a rfl s hs

/-- A loop keeps the invariant as long as nothing is refused if each of its steps does. -/
theorem maintains_forM {f : α → EStateM ε σ PUnit} {xs : List α}
    (h : ∀ x ∈ xs, Maintains P Q (f x)) : Maintains P Q (xs.forM f) := by
  intro s hs
  refine after_forM (I := fun _ => P) (fun ys x zs hxs t ht => ?_) hs
  exact h x (by rw [hxs]; simp) t ht

/-- An error may be told in other words. -/
theorem Maintains.rethrow (h : Maintains P Q act) (f : ε → ε) :
    Maintains P Q (MonadExcept.tryCatch act fun e => throw (f e)) :=
  fun s hs => after_tryCatch.2 (h s hs)

/-- Where the action is refused, it leaves the state as it was. -/
def Harmless (act : EStateM ε σ α) (s : σ) : Prop := value? act s = none → Action.stateAfter act s = s

/-- An action that is not refused can do no harm by being refused. -/
theorem harmless_of_isSome (h : (value? act s).isSome = true) : Harmless act s := by
  intro hnone
  rw [hnone] at h
  cases h

/-- What is maintained by an action that is not refused with a change is there afterwards. -/
theorem Maintains.harmless (h : Maintains P Q act) (hs : P s) (hact : Harmless act s) :
    P (Action.stateAfter act s) := by
  cases hvalue : value? act s with
  | some a => exact (h s hs).of_ok (eq_ok_of_value? hvalue)
  | none =>
    rw [hact hvalue]
    exact hs

/-! ### Actions in two states that are related -/

/-- The two actions have the same answer, and the states they lead to are related again. -/
def Agree (R : σ → σ → Prop) (act act' : EStateM ε σ α) (s s' : σ) : Prop :=
  answer act s = answer act' s' ∧ R (Action.stateAfter act s) (Action.stateAfter act' s')

/-- The action does not see what the relation leaves open: in states that are related it agrees
with itself. -/
def Blind (R : σ → σ → Prop) (act : EStateM ε σ α) : Prop :=
  ∀ s s', R s s' → Agree R act act s s'

variable {R : σ → σ → Prop} {act' : EStateM ε σ α} {s' : σ}

/-- Actions in a row agree if the first ones do, and the next ones do in the states that these lead
to. -/
theorem Agree.bind {next next' : α → EStateM ε σ β} (h : Agree R act act' s s')
    (hnext : ∀ a t t', R t t' → Agree R (next a) (next' a) t t') :
    Agree R (act >>= next) (act' >>= next') s s' := by
  have hbind : ∀ (f : EStateM ε σ α) (g : α → EStateM ε σ β) (r : σ), (f >>= g) r =
      match f r with
      | .ok a t => g a t
      | .error e t => .error e t := fun _ _ _ => rfl
  unfold Agree answer Action.stateAfter at *
  rw [hbind, hbind]
  -- one goes through and the other is refused only where the answers differ, which they do not
  cases hact : act s with
  | ok a t =>
    cases hact' : act' s' with
    | ok a' t' =>
      rw [hact, hact'] at h
      obtain rfl : a = a' := Except.ok.inj h.1
      exact hnext a t t' h.2
    | error e' t' =>
      rw [hact, hact'] at h
      cases h.1
  | error e t =>
    cases hact' : act' s' with
    | ok a' t' =>
      rw [hact, hact'] at h
      cases h.1
    | error e' t' =>
      rw [hact, hact'] at h
      obtain rfl : e = e' := Except.error.inj h.1
      exact ⟨rfl, h.2⟩

theorem blind_pure (a : α) : Blind R (pure a : EStateM ε σ α) := fun _ _ h => ⟨rfl, h⟩

theorem blind_throw (e : ε) : Blind R (throw e : EStateM ε σ α) := fun _ _ h => ⟨rfl, h⟩

/-- A result from outside does not depend on the state. -/
theorem blind_ofExcept (x : Except ε α) : Blind R (ofExcept x : EStateM ε σ α) := by
  cases x with
  | ok a => exact blind_pure a
  | error e => exact blind_throw e

theorem blind_modify {f : σ → σ} (h : ∀ s s', R s s' → R (f s) (f s')) :
    Blind R (modify f : EStateM ε σ PUnit) := fun s s' hs => ⟨rfl, h s s' hs⟩

/-- A step is blind if what it reads off is the same in related states, and its changes keep them
related. -/
theorem blind_modifyGet {f : σ → α × σ}
    (h : ∀ s s', R s s' → (f s).1 = (f s').1 ∧ R (f s).2 (f s').2) :
    Blind R (modifyGet f : EStateM ε σ α) :=
  fun s s' hs => ⟨congrArg Except.ok (h s s' hs).1, (h s s' hs).2⟩

/-- A function that is applied to a value is applied to the answer. -/
theorem answer_map (f : α → β) (act : EStateM ε σ α) (s : σ) :
    answer (f <$> act) s = (answer act s).map f := by
  unfold answer
  show (match EStateM.map f act s with
    | .ok a _ => Except.ok a
    | .error e _ => .error e) = _
  unfold EStateM.map
  cases act s <;> rfl

/-- What is done with the state that was read may depend on it, as long as it agrees. -/
theorem blind_get {next : σ → EStateM ε σ α}
    (h : ∀ s s', R s s' → Agree R (next s) (next s') s s') : Blind R (get >>= next) := h

/-- Actions in a row are blind if each of them is. -/
theorem Blind.bind (h : Blind R act) {next : α → EStateM ε σ β} (hnext : ∀ a, Blind R (next a)) :
    Blind R (act >>= next) :=
  fun s s' hs => (h s s' hs).bind fun a t t' ht => hnext a t t' ht

/-- An action that is caught is blind if it is and what handles the refusals is: related states have
the same refusals. -/
theorem Blind.tryCatch (h : Blind R act) {handle : ε → EStateM ε σ α}
    (hhandle : ∀ e, Blind R (handle e)) : Blind R (tryCatch act handle) := by
  have hcatch : ∀ r, (MonadExcept.tryCatch act handle : EStateM ε σ α) r =
      match act r with
      | .ok a t => .ok a t
      | .error e t => handle e t := by
    intro r
    show EStateM.tryCatch act handle r = _
    unfold EStateM.tryCatch
    cases act r <;> rfl
  intro s s' hs
  have hact := h s s' hs
  unfold Agree answer Action.stateAfter at *
  rw [hcatch, hcatch]
  -- as for actions in a row, but here it is the refusals that go on
  cases he : act s with
  | ok a t =>
    cases he' : act s' with
    | ok a' t' =>
      rw [he, he'] at hact
      exact hact
    | error e' t' =>
      rw [he, he'] at hact
      cases hact.1
  | error e t =>
    cases he' : act s' with
    | ok a' t' =>
      rw [he, he'] at hact
      cases hact.1
    | error e' t' =>
      rw [he, he'] at hact
      obtain rfl : e = e' := Except.error.inj hact.1
      exact hhandle e t t' hact.2

/-- A loop is blind if each of its steps is. -/
theorem blind_forM {f : α → EStateM ε σ PUnit} {xs : List α} (h : ∀ x ∈ xs, Blind R (f x)) :
    Blind R (xs.forM f) := by
  induction xs with
  | nil => exact blind_pure _
  | cons x xs ih =>
    exact (h x List.mem_cons_self).bind fun _ => ih fun y hy => h y (List.mem_cons_of_mem _ hy)

/-! ### Loops without a bound -/

/-- What `f` looks for in a number of steps, and does not have when they are used up, is `a` with
enough steps, however many more there are. So a loop without a bound would end with `a`. -/
def Ends (f : Nat → Option α) (a : α) : Prop := ∃ enough, ∀ n, enough ≤ n → f n = some a

variable {f : Nat → Option α} {a : α}

theorem ends_of_forall (h : ∀ n, f n = some a) : Ends f a := ⟨0, fun n _ => h n⟩

/-- A step is taken before the others. -/
theorem Ends.of_succ (h : Ends (fun n => f (n + 1)) a) : Ends f a := by
  obtain ⟨enough, h⟩ := h
  refine ⟨enough + 1, fun n hn => ?_⟩
  obtain ⟨m, rfl⟩ : ∃ m, n = m + 1 := ⟨n - 1, by omega⟩
  exact h m (by omega)

/-- A loop that is followed by another ends if both do, with the greater of the two numbers of
steps. -/
theorem Ends.bind (h : Ends f a) {next : Nat → α → Option β} {b : β}
    (hnext : Ends (fun n => next n a) b) : Ends (fun n => f n >>= next n) b := by
  obtain ⟨enough, h⟩ := h
  obtain ⟨enough', hnext⟩ := hnext
  refine ⟨max enough enough', fun n hn => ?_⟩
  show (f n).bind (next n) = some b
  rw [h n (by omega), Option.bind_some]
  exact hnext n (by omega)

end Action

end Storyworld
