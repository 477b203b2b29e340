import Rgpot.Mpi.PefSession

/-! The ranks of a session stay in lockstep over any run of requests. -/
namespace Rgpot.Mpi
open Collective Words

variable {n : ℕ} {Result : Type} {k : Backend} {b : Fin (n + 1) → Bodies Result}
  {s : Fin (n + 1) → Session Result} {g : Geometry} {words : List UInt64}

/-- A broadcast, and what follows it with the root's elements. -/
theorem Agrees.broadcast_bind {α β : Type} [Word α] (allocation : Fin (n + 1) → Option Failure)
    (values : Fin (n + 1) → List α) {f : Fin (n + 1) → List α → Host β}
    {y : Fin (n + 1) → Except Text β} (hf : Agrees (fun r => f r (values 0)) y) :
    Agrees (fun r => broadcast r (allocation r) (values r) >>= f r) fun r =>
      agreed (fun q => resize α (values 0).length (allocation q)) r >>= fun _ => y r := by
  have hbroadcast := broadcast_agrees allocation values
  rcases uniform_agreed fun q => resize α (values 0).length (allocation q) with ⟨a, ha⟩ | ⟨e, he⟩
  · rw [ha] at hbroadcast ⊢
    exact hbroadcast.bind_ok hf
  · rw [he] at hbroadcast ⊢
    exact hbroadcast.bind_error

theorem calculateReceived_agrees (b : Fin (n + 1) → Bodies Result) (g : Fin (n + 1) → Geometry) :
    Agrees (fun r => calculateReceived r (b r) (g r)) (calculateOutcome b (g 0)) := by
  refine Agrees.broadcast_bind _ (fun r => (g r).coordinates) ?_
  refine Agrees.broadcast_bind _ (fun r => (g r).numbers) ?_
  refine Agrees.broadcast_bind _ (fun r => (g r).cell) ?_
  have hprepare := collective_agrees fun r => prepare (g 0) (b r)
  exact hprepare.bind (uniform_agreed _) fun _ _ => collective_agrees _

theorem uniform_calculateOutcome (b : Fin (n + 1) → Bodies Result) (g : Geometry) :
    Uniform (calculateOutcome b g) := by
  refine (uniform_agreed _).bind fun _ => ?_
  refine (uniform_agreed _).bind fun _ => ?_
  refine (uniform_agreed _).bind fun _ => ?_
  exact (uniform_agreed _).bind fun _ => uniform_agreed _

theorem configureReceived_lockstep (k : Backend) (b : Fin (n + 1) → Bodies Result)
    (stored words : Fin (n + 1) → List UInt64) : ∃ t, Lockstep Call.value
      (fun r => configureReceived k r (b r) (stored r) (words r)) t
      (configureOutcome k b (words 0) stored) := by
  obtain ⟨t, ht⟩ := broadcast_agrees (fun r => (b r).allocation 0) words
  rcases uniform_agreed fun q => resize UInt64 (words 0).length ((b q).allocation 0) with
    ⟨a, ha⟩ | ⟨e, he⟩
  · obtain ⟨u, hu⟩ := collective_agrees fun r =>
      accept (setPotentialConfig k (b r) (stored r) (words 0)).2
    have houtcome : configureOutcome k b (words 0) stored = fun r =>
        ((setPotentialConfig k (b r) (stored r) (words 0)).1,
          agreed (fun q => accept (setPotentialConfig k (b q) (stored q) (words 0)).2) r) := by
      funext r
      simp only [configureOutcome, ha]
    rw [ha] at ht
    rw [houtcome]
    exact ⟨_, ht.bind (hu.bind (Lockstep.pure _))⟩
  · have houtcome : configureOutcome k b (words 0) stored = fun r => (stored r, .error e) := by
      funext r
      simp only [configureOutcome, he]
    rw [he] at ht
    rw [houtcome]
    exact ⟨_, ht.bind (Lockstep.pure _)⟩

/-- Every worker of the session is at the broadcast of the next command. -/
def Waiting (P : Prog Call Buffer (Session Result)) : Prop :=
  ∃ next, P = .call ⟨.Bcast 0, 1, .INT⟩ (.ints [Command.Stop.code]) next

theorem waiting_work (k : Backend) (r : Fin (n + 1)) (b : ℕ → Bodies Result) (fuel i : ℕ)
    (s : Session Result) : Waiting (work k r b (fuel + 1) i s) := ⟨_, rfl⟩

section Session
variable {b : Fin (n + 1) → ℕ → Bodies Result} {rest : List Request} {fuel i : ℕ}

/-- The command reaches all ranks, which then go on as their roles say. -/
theorem command_leads (command : Command) {P : Fin (n + 1) → Prog Call Buffer (Session Result)}
    (next : Fin (n + 1) → ℤ → Prog Call Buffer (Session Result))
    (hroot : P 0 = broadcastCommand command.code >>= next 0)
    (hwork : ∀ r, r ≠ 0 → P r = broadcastCommand Command.Stop.code >>= next r) :
    Leads Call.value P [⟨.Bcast 0, 1, .INT⟩] fun r => next r command.code := by
  have hP : P = fun r => .call ⟨.Bcast 0, 1, .INT⟩
      (.ints [if r = 0 then command.code else Command.Stop.code]) fun x => next r x.toInt := by
    funext r
    by_cases hr : r = 0
    · subst hr
      simp [hroot, broadcastCommand]
    · simp [hwork r hr, hr, broadcastCommand]
  have hsingle := Leads.single (c := Call.value) ⟨.Bcast ((0 : Fin (n + 1)) : ℕ), 1, .INT⟩
    (fun r : Fin (n + 1) => .ints [if r = 0 then command.code else Command.Stop.code])
    fun r x => next r x.toInt
  rw [value_Bcast] at hsingle
  rw [hP]
  simpa using hsingle

/-- A request that is sent: the command, and then what every rank does to serve it. -/
theorem served_leads (command : Command) {q : Request} {t : List Call}
    {serve : Fin (n + 1) → Prog Call Buffer (Session Result)} {s s' : Fin (n + 1) → Session Result}
    (hroot : root k (0 : Fin (n + 1)) (b 0) (q :: rest) i (s 0) = broadcastCommand command.code >>=
      fun _ => serve 0 >>= root k (0 : Fin (n + 1)) (b 0) rest (i + 1))
    (hwork : ∀ r, r ≠ 0 → obey k r (b r i) (s r) (work k r (b r) fuel (i + 1)) command.code =
      serve r >>= work k r (b r) fuel (i + 1))
    (hserve : Lockstep Call.value serve t s') :
    Leads Call.value (ranks k b (q :: rest) (fuel + 1) i s) (⟨.Bcast 0, 1, .INT⟩ :: t)
      (ranks k b rest fuel (i + 1) s') := by
  let next : Fin (n + 1) → ℤ → Prog Call Buffer (Session Result) := fun r x =>
    if r = 0 then serve 0 >>= root k (0 : Fin (n + 1)) (b 0) rest (i + 1)
    else obey k r (b r i) (s r) (work k r (b r) fuel (i + 1)) x
  have hcommand := command_leads (P := ranks k b (q :: rest) (fuel + 1) i s) command next
    (by simp [ranks, hroot, next]) fun r hr => by simp [ranks, hr, work, next]
  have hnext : (fun r => next r command.code) = fun r => serve r >>= fun x =>
      if r = 0 then root k r (b r) rest (i + 1) x else work k r (b r) fuel (i + 1) x := by
    funext r
    by_cases hr : r = 0
    · subst hr
      simp [next]
    · simp [next, hr, hwork r hr]
  rw [hnext] at hcommand
  exact hcommand.trans (Lockstep.leads (f := fun r x =>
    if r = 0 then root k r (b r) rest (i + 1) x else work k r (b r) fuel (i + 1) x) hserve)

/-- One request, whatever its functions do: the ranks meet again where the next one starts. -/
theorem request_leads {q : Request} (hvalid : q.Valid) (rest : List Request) (fuel i : ℕ)
    (s : Fin (n + 1) → Session Result) :
    ∃ t, Leads Call.value (ranks k b (q :: rest) (fuel + 1) i s) t
      (ranks k b rest fuel (i + 1) (served k (fun r => b r i) s q)) := by
  cases q with
  | calculate positions numbers box =>
    let g : Fin (n + 1) → Geometry := fun r =>
      if r = 0 then ⟨positions.data.take (positions.rows * 3), numbers, List.ofFn box⟩
      else ⟨[], [], []⟩
    obtain ⟨t, ht⟩ := calculateReceived_agrees (fun r => b r i) g
    have hserve : Lockstep Call.value (fun r => serveCalculate r (b r i) (g r) (s r)) (t ++ [])
        (served k (fun r => b r i) s (.calculate positions numbers box)) :=
      ht.bind (Lockstep.pure _)
    refine ⟨_, served_leads .Calculate ?_ ?_ hserve⟩
    · have hok : ¬ (positions.cols ≠ 3 ∨ positions.rows ≠ numbers.length) := by
        rintro (hcols | hrows)
        · exact hcols hvalid.1
        · exact hrows hvalid.2
      simp [root, hok, g]
    · intro r hr
      simp [obey, Command.code, g, hr]
  | configure words =>
    let w : Fin (n + 1) → List UInt64 := fun r => if r = 0 then words else []
    obtain ⟨t, ht⟩ := configureReceived_lockstep k (fun r => b r i) (fun r => (s r).stored) w
    have hserve : Lockstep Call.value (fun r => serveConfigure k r (b r i) (w r) (s r)) (t ++ [])
        (served k (fun r => b r i) s (.configure words)) := ht.bind (Lockstep.pure _)
    refine ⟨_, served_leads .Configure ?_ ?_ hserve⟩
    · simp [root, w]
    · intro r hr
      simp [obey, Command.code, w, hr]

/-- A request the root refuses is not sent. -/
theorem ranks_of_not_valid {q : Request} (hvalid : ¬ q.Valid) (s : Fin (n + 1) → Session Result) :
    ranks k b (q :: rest) fuel i s = ranks k b rest fuel i s := by
  cases q with
  | calculate positions numbers box =>
    have hbad : positions.cols ≠ 3 ∨ positions.rows ≠ numbers.length := by
      by_contra hok
      exact hvalid ⟨by_contra fun h => hok (Or.inl h), by_contra fun h => hok (Or.inr h)⟩
    funext r
    simp only [ranks, root, if_pos hbad]
  | configure words => exact absurd trivial hvalid

/-- The number of requests that are sent. -/
def sent (requests : List Request) : ℕ := (requests.filter (·.Valid)).length

/-- Any run of requests: all ranks meet where the rest of the requests starts. -/
theorem requests_leads (before after : List Request) (fuel i : ℕ)
    (s : Fin (n + 1) → Session Result) : ∃ t,
      Leads Call.value (ranks k b (before ++ after) (sent before + fuel) i s) t
        (ranks k b after fuel (i + sent before) (afterRequests k b before i s)) := by
  induction before generalizing i s with
  | nil => exact ⟨[], by simpa [sent, afterRequests] using Leads.refl _⟩
  | cons q before ih =>
    by_cases hvalid : q.Valid
    · obtain ⟨t, ht⟩ := request_leads (k := k) (b := b) hvalid (before ++ after)
        (sent before + fuel) i s
      obtain ⟨u, hu⟩ := ih (i + 1) (served k (fun r => b r i) s q)
      have hsent : sent (q :: before) = sent before + 1 := by simp [sent, hvalid]
      refine ⟨t ++ u, ?_⟩
      rw [hsent, Nat.add_right_comm, List.cons_append]
      have hi : i + (sent before + 1) = i + 1 + sent before := by omega
      rw [hi, afterRequests, if_pos hvalid]
      exact ht.trans hu
    · obtain ⟨u, hu⟩ := ih i s
      have hsent : sent (q :: before) = sent before := by simp [sent, hvalid]
      refine ⟨u, ?_⟩
      rw [hsent, List.cons_append, ranks_of_not_valid hvalid, afterRequests, if_neg hvalid]
      exact hu

/-- The stop ends every rank. -/
theorem stop_lockstep (fuel i : ℕ) (s : Fin (n + 1) → Session Result) :
    Lockstep Call.value (ranks k b [] (fuel + 1) i s) [⟨.Bcast 0, 1, .INT⟩]
      fun r => { s r with stopped := true } := by
  let next : Fin (n + 1) → ℤ → Prog Call Buffer (Session Result) := fun r x =>
    if r = 0 then return { s 0 with stopped := true }
    else obey k r (b r i) (s r) (work k r (b r) fuel (i + 1)) x
  have hcommand := command_leads (P := ranks k b [] (fuel + 1) i s) .Stop next
    (by simp [ranks, root, next]) fun r hr => by simp [ranks, hr, work, next]
  have hnext : (fun r => next r Command.Stop.code) =
      fun r => .ret { s r with stopped := true } := by
    funext r
    by_cases hr : r = 0
    · subst hr
      simp [next]
    · simp [next, hr, obey]
  rwa [hnext] at hcommand

/-- Success, or the error. -/
def verdict {α : Type} : Except Text α → Option Text
  | .ok _ => none
  | .error e => some e

@[simp] theorem verdict_map {α β : Type} (f : α → β) (x : Except Text α) :
    verdict (x.map f) = verdict x := by
  cases x <;> rfl

theorem Uniform.verdict_eq {α : Type} {x : Fin (n + 1) → Except Text α} (h : Uniform x)
    (r q : Fin (n + 1)) : verdict (x r) = verdict (x q) := by
  rcases h with ⟨a, rfl⟩ | ⟨e, rfl⟩ <;> rfl

theorem uniform_configureOutcome (k : Backend) (b : Fin (n + 1) → Bodies Result)
    (words : List UInt64) (stored : Fin (n + 1) → List UInt64) :
    Uniform fun r => (configureOutcome k b words stored r).2 := by
  rcases uniform_agreed fun q => resize UInt64 words.length ((b q).allocation 0) with
    ⟨a, ha⟩ | ⟨e, he⟩
  · simpa only [configureOutcome, ha] using uniform_agreed _
  · simp only [configureOutcome, he]
    exact Or.inr ⟨e, rfl⟩

/-- Every rank has had the same verdicts. -/
def SameVerdicts (s : Fin (n + 1) → Session Result) : Prop :=
  ∀ r q, (s r).outcomes.map verdict = (s q).outcomes.map verdict

theorem SameVerdicts.served (h : SameVerdicts s) (k : Backend) (b : Fin (n + 1) → Bodies Result)
    (q : Request) : SameVerdicts (served k b s q) := by
  intro r r'
  cases q with
  | calculate positions numbers box =>
    have hsame := (uniform_calculateOutcome b
      ⟨positions.data.take (positions.rows * 3), numbers, List.ofFn box⟩).verdict_eq r r'
    simpa [Mpi.served, h r r'] using hsame
  | configure words =>
    have hsame := (uniform_configureOutcome k b words fun q => (s q).stored).verdict_eq r r'
    simpa [Mpi.served, h r r'] using hsame

theorem SameVerdicts.afterRequests (h : SameVerdicts s) (requests : List Request) (i : ℕ) :
    SameVerdicts (afterRequests k b requests i s) := by
  induction requests generalizing i s with
  | nil => exact h
  | cons q requests ih =>
    unfold Mpi.afterRequests
    split
    · exact ih (h.served k _ q) (i + 1)
    · exact ih h i

theorem length_outcomes (requests : List Request) (i : ℕ) (s : Fin (n + 1) → Session Result)
    (r : Fin (n + 1)) : (afterRequests k b requests i s r).outcomes.length =
      (s r).outcomes.length + sent requests := by
  induction requests generalizing i s with
  | nil => rfl
  | cons q requests ih =>
    unfold afterRequests
    by_cases hvalid : q.Valid
    · have hone : (served k (fun r => b r i) s q r).outcomes.length = (s r).outcomes.length + 1 := by
        cases q <;> simp [served]
      rw [if_pos hvalid, ih, hone]
      simp only [sent, List.filter_cons, hvalid, decide_true, if_true, List.length_cons]
      omega
    · rw [if_neg hvalid, ih]
      simp [sent, hvalid]

/-- Nothing throws before the parameters are stored. -/
def Bodies.Stores (b : Bodies Result) : Prop := b.reader = none ∧ b.serialize = none

/-- In each configuration either every rank reaches the store of its parameters or none does. -/
def StoresTogether (b : Fin (n + 1) → ℕ → Bodies Result) : Prop :=
  ∀ i, (∀ r, (b r i).Stores) ∨ ∀ r, ¬ (b r i).Stores

theorem stored_of_stores {b : Bodies Result} (h : b.Stores) (k : Backend) (stored words : List UInt64) :
    (setPotentialConfig k b stored words).1 =
      match k.read words with
      | .ok (.own params) => params
      | _ => stored := by
  have hread : readArm k b words = k.read words := by
    rw [readArm, h.1]
    rfl
  rw [setPotentialConfig, hread, h.2]
  rcases k.read words with e | _ | params | _ <;> rfl

/-- A rank that throws before keeps what it has. -/
theorem stored_of_not_stores {b : Bodies Result} (h : ¬ b.Stores) (k : Backend) (stored words : List UInt64) :
    (setPotentialConfig k b stored words).1 = stored := by
  rw [setPotentialConfig]
  cases hreader : b.reader with
  | some e =>
    rw [readArm, hreader]
    rfl
  | none =>
    obtain ⟨e, he⟩ := Option.ne_none_iff_exists'.mp fun hserialize => h ⟨hreader, hserialize⟩
    rw [he]
    rcases readArm k b words with e' | _ | params | _ <;> rfl

def SameStored (s : Fin (n + 1) → Session Result) : Prop := ∀ r q, (s r).stored = (s q).stored

theorem SameStored.served {b : Fin (n + 1) → Bodies Result} (h : SameStored s) (k : Backend)
    (hb : (∀ r, (b r).Stores) ∨ ∀ r, ¬ (b r).Stores) (q : Request) :
    SameStored (served k b s q) := by
  intro r r'
  cases q with
  | calculate => exact h r r'
  | configure words =>
    have hstored : (setPotentialConfig k (b r) (s r).stored words).1 =
        (setPotentialConfig k (b r') (s r').stored words).1 := by
      rcases hb with hall | hall
      · rw [stored_of_stores (hall r), stored_of_stores (hall r'), h r r']
      · rw [stored_of_not_stores (hall r), stored_of_not_stores (hall r'), h r r']
    rcases uniform_agreed fun q => resize UInt64 words.length ((b q).allocation 0) with
      ⟨a, ha⟩ | ⟨e, he⟩
    · simpa [Mpi.served, configureOutcome, ha] using hstored
    · simpa [Mpi.served, configureOutcome, he] using h r r'

theorem SameStored.afterRequests (h : SameStored s) (hb : StoresTogether b)
    (requests : List Request) (i : ℕ) : SameStored (afterRequests k b requests i s) := by
  induction requests generalizing i s with
  | nil => exact h
  | cons q requests ih =>
    unfold Mpi.afterRequests
    split
    · exact ih (h.served k (hb i) q) (i + 1)
    · exact ih h i

theorem sent_append (before after : List Request) :
    sent (before ++ after) = sent before + sent after := by
  simp [sent]

theorem afterRequests_append (before after : List Request) (i : ℕ)
    (s : Fin (n + 1) → Session Result) : afterRequests k b (before ++ after) i s =
      afterRequests k b after (i + sent before) (afterRequests k b before i s) := by
  induction before generalizing i s with
  | nil => simp [sent, afterRequests]
  | cons q before ih =>
    rw [List.cons_append, afterRequests, afterRequests]
    by_cases hvalid : q.Valid
    · have hi : i + sent (q :: before) = i + 1 + sent before := by
        simp only [sent, List.filter_cons, hvalid, decide_true, if_true, List.length_cons]
        omega
      rw [if_pos hvalid, if_pos hvalid, ih, hi]
    · have hi : i + sent (q :: before) = i + sent before := by simp [sent, hvalid]
      rw [if_neg hvalid, if_neg hvalid, ih, hi]

/-- Requests and the stop after them. -/
theorem requests_lockstep (requests : List Request) (fuel i : ℕ) (s : Fin (n + 1) → Session Result) :
    ∃ t, Lockstep Call.value (ranks k b requests (sent requests + (fuel + 1)) i s) t
      fun r => { afterRequests k b requests i s r with stopped := true } := by
  obtain ⟨t, ht⟩ := requests_leads (k := k) (b := b) requests [] (fuel + 1) i s
  rw [List.append_nil] at ht
  exact ⟨_, ht.trans (stop_lockstep fuel _ _)⟩

/-- The next request starts with every worker waiting for its command. -/
theorem meeting (before after : List Request) (fuel : ℕ) (s : Fin (n + 1) → Session Result) :
    ∃ u v P, Lockstep Call.value
        (ranks k b (before ++ after) (sent (before ++ after) + (fuel + 1)) 0 s) (u ++ v)
        (fun r => { afterRequests k b (before ++ after) 0 s r with stopped := true }) ∧
      Leads Call.value (ranks k b (before ++ after) (sent (before ++ after) + (fuel + 1)) 0 s) u P ∧
      ∀ r, r ≠ 0 → Waiting (P r) := by
  obtain ⟨u, hu⟩ := requests_leads (k := k) (b := b) before after (sent after + (fuel + 1)) 0 s
  obtain ⟨v, hv⟩ := requests_lockstep (k := k) (b := b) after fuel (0 + sent before)
    (afterRequests k b before 0 s)
  have hfuel : sent (before ++ after) + (fuel + 1) = sent before + (sent after + (fuel + 1)) := by
    rw [sent_append]
    omega
  rw [afterRequests_append, hfuel]
  refine ⟨u, v, _, hu.trans hv, hu, fun r hr => ?_⟩
  rw [ranks, if_neg hr]
  exact waiting_work k r (b r) _ _ _

/-- A session as it starts: every potential holds the same parameters. -/
def opened (n : ℕ) (Result : Type) (words : List UInt64) : Fin (n + 1) → Session Result :=
  fun _ => { stored := words }

/-- For any number of ranks, any requests and any functions that return or throw: under every
interleaving all ranks perform the same collectives and end with the stop; between requests every
worker waits for a command; every rank has the outcome of each request that was sent, the same on all
of them; and all hold the same parameters, if in no configuration some ranks stored them while others
threw before they could. -/
theorem session_lockstep (k : Backend) (b : Fin (n + 1) → ℕ → Bodies Result)
    (requests : List Request) (words : List UInt64) (fuel : ℕ) (hfuel : sent requests < fuel) :
    ∃ t,
      Lockstep Call.value (ranks k b requests fuel 0 (opened n Result words)) t
        (fun r => { afterRequests k b requests 0 (opened n Result words) r with stopped := true }) ∧
      Together Call.value (ranks k b requests fuel 0 (opened n Result words)) t
        (fun r => { afterRequests k b requests 0 (opened n Result words) r with stopped := true }) ∧
      (∀ before after, requests = before ++ after → ∃ u v P, t = u ++ v ∧
        Leads Call.value (ranks k b requests fuel 0 (opened n Result words)) u P ∧
        ∀ r, r ≠ 0 → Waiting (P r)) ∧
      (∀ r, (afterRequests k b requests 0 (opened n Result words) r).outcomes.length =
        sent requests) ∧
      SameVerdicts (afterRequests k b requests 0 (opened n Result words)) ∧
      (StoresTogether b → SameStored (afterRequests k b requests 0 (opened n Result words))) := by
  obtain ⟨f, rfl⟩ : ∃ f, fuel = sent requests + (f + 1) := ⟨fuel - sent requests - 1, by omega⟩
  obtain ⟨t, ht⟩ := requests_lockstep (k := k) (b := b) requests f 0 (opened n Result words)
  refine ⟨t, ht, ht.together, ?_, ?_, ?_, ?_⟩
  · rintro before after rfl
    obtain ⟨u, v, P, huv, hu, hwaiting⟩ := meeting (k := k) (b := b) before after f
      (opened n Result words)
    exact ⟨u, v, P, (ht.unique huv).1, hu, hwaiting⟩
  · intro r
    simpa [opened] using length_outcomes requests 0 (opened n Result words) r
  · have hopened : SameVerdicts (opened n Result words) := fun _ _ => rfl
    exact hopened.afterRequests requests 0
  · have hopened : SameStored (opened n Result words) := fun _ _ => rfl
    exact fun hb => hopened.afterRequests hb requests 0

/-- Two ranks that both fail the force: the error is that of rank 0. -/
theorem session_lockstep_two_ranks : ∃ t, Lockstep Call.value
    (ranks ⟨fun w => .ok (.own w), []⟩
      (fun r _ => { force := fun _ => .error (.exception [if r = (0 : Fin 2) then 'a' else 'b']) })
      [.calculate ⟨1, 3, [1, 2, 3]⟩ [1] fun _ => 0] 2 0 (opened 1 Unit [5])) t
    fun r => { afterRequests ⟨fun w => .ok (.own w), []⟩
      (fun r _ => { force := fun _ => .error (.exception [if r = (0 : Fin 2) then 'a' else 'b']) })
      [.calculate ⟨1, 3, [1, 2, 3]⟩ [1] fun _ => 0] 0 (opened 1 Unit [5]) r with stopped := true } := by
  obtain ⟨t, ht, -⟩ := session_lockstep ⟨fun w => .ok (.own w), []⟩
    (fun r _ => { force := fun _ => .error (.exception [if r = (0 : Fin 2) then 'a' else 'b']) })
    [.calculate ⟨1, 3, [1, 2, 3]⟩ [1] fun _ => 0] [5] 2 (by decide)
  exact ⟨t, ht⟩

/-- Rank 1 runs out of memory before it stores the parameters, rank 0 stores them: the ranks hold
different parameters. -/
theorem stored_words_diverge :
    ¬ ∀ (n : ℕ) (k : Backend) (b : Fin (n + 1) → ℕ → Bodies Unit) (requests : List Request)
      (words : List UInt64) (fuel : ℕ), sent requests < fuel →
      ∃ t a, Lockstep Call.value (ranks k b requests fuel 0 (opened n Unit words)) t a ∧
        SameStored a := by
  intro h
  let k : Backend := ⟨fun w => .ok (.own w), []⟩
  let b : Fin 2 → ℕ → Bodies Unit := fun r _ =>
    { force := fun _ => .ok ()
      serialize := if r = 1 then some (.exception "std::bad_alloc".toList) else none }
  obtain ⟨t, a, ha, hsame⟩ := h 1 k b [.configure [7]] [5] 2 (by decide)
  obtain ⟨u, hu⟩ := requests_lockstep (k := k) (b := b) [.configure [7]] 0 0 (opened 1 Unit [5])
  obtain rfl := (ha.unique hu).2
  have hdiverge : ([7] : List UInt64) = [5] := hsame 0 1
  exact absurd hdiverge (by decide)

end Session

end Rgpot.Mpi
