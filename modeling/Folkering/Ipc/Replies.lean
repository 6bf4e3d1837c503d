/-
  IPC — who completes a blocked send.

  A task that is blocked in a send on a server for a message should become runnable only through a reply that
  the server executes and that answers this message.  The checks of the two reply functions look at the
  sender's state word alone, so this is a property of runs in which
    * a token reply that meets a waiting sender presents a token that was handed to the replying task,
    * a plain reply that meets a blocked sender answers a request that the task received and has not answered,
    * no task sends to a server that still has an earlier request of it, and
    * fewer than 2 ^ 48 messages are numbered.

  ## The invariant
  `Inv` relates a blocked task to the messages it has at its server (`pending`): all of them are the message
  of the present send.  Every elementary change of the system keeps it (`Inv.restate`, `Inv.enqueue`,
  `Inv.block`, `Inv.pop`, …); the acts are compositions of these.
-/
import Folkering.Ipc.Model

namespace Folkering.Ipc

open List Function

/-! ## Elementary changes -/

namespace Sys

theorem tasks_update {s : Sys} {t u : Nat} {f : Task → Task} {k : Task} (h : (s.update t f).tasks u = some k) :
    (u ≠ t ∧ s.tasks u = some k) ∨ (u = t ∧ ∃ k₀, s.tasks t = some k₀ ∧ k = f k₀) := by
  by_cases hu : u = t
  · subst hu
    simp only [update, update_self, Option.map_eq_some_iff] at h
    obtain ⟨k₀, hk, rfl⟩ := h
    exact Or.inr ⟨rfl, k₀, hk, rfl⟩
  · simp only [update, update_of_ne hu] at h
    exact Or.inl ⟨hu, h⟩

theorem queueOf_update {s : Sys} {t : Nat} {f : Task → Task}
    (hf : ∀ k, (f k).recvQueue = k.recvQueue) (u : Nat) : (s.update t f).queueOf u = s.queueOf u := by
  by_cases hu : u = t
  · subst hu
    cases hk : s.tasks u with
    | none => simp [queueOf, update, hk]
    | some k => simp [queueOf, update, hk, hf]
  · simp [queueOf, update, update_of_ne hu]

theorem queueOf_update_ne {s : Sys} {t u : Nat} {f : Task → Task} (hu : u ≠ t) :
    (s.update t f).queueOf u = s.queueOf u := by
  simp [queueOf, update, update_of_ne hu]

theorem queueOf_update_self {s : Sys} {t : Nat} {f : Task → Task} {k : Task} (hk : s.tasks t = some k) :
    (s.update t f).queueOf t = (f k).recvQueue.messages := by
  simp [queueOf, update, hk]

theorem queueOf_of_tasks {s : Sys} {t : Nat} {k : Task} (hk : s.tasks t = some k) :
    s.queueOf t = k.recvQueue.messages := by
  simp [queueOf, hk]

end Sys

theorem MessageQueue.push_messages {q q' : MessageQueue} {msg : Message} (h : q.push msg = some q') :
    q'.messages = q.messages ++ [msg] := by
  unfold MessageQueue.push at h
  split at h
  · cases h
    rfl
  · cases h

theorem MessageQueue.pop_messages {q q' : MessageQueue} {msg : Message} (h : q.pop = some (msg, q')) :
    q.messages = msg :: q'.messages := by
  rcases q with ⟨_ | ⟨r, rest⟩, hq⟩
  · cases h
  · cases h
    rfl

/-! ## The invariant -/

/-- The messages that a task has in its queue or holds unanswered. -/
def World.pending (w : World) (u : Nat) : List Message := w.sys.queueOf u ++ w.held u

/-- The state word of a task whose send on `S` for message `m` is not completed, and the only request of it
    that `S` has. -/
def World.Waits (w : World) (t S m : Nat) (state : TaskState) : Prop :=
  (state = .blockedOnSend S ∨ state = .waitingForReply m) ∧
    ∀ r ∈ w.pending S, r.msgType = .request → r.sender = t → r.msgId = m

/-- What the replies rely on. -/
structure Inv (w : World) : Prop where
  numbered : ∀ i, w.sys.nextMessageId ≤ i → w.sentTo i = none
  bound : w.sys.nextMessageId ≤ 2 ^ 48
  delivered : ∀ u, ∀ r ∈ w.pending u, w.sentTo r.msgId = some (r.sender, u)
  heldRequest : ∀ u, ∀ r ∈ w.held u, r.msgType = .request
  tokens : ∀ u, ∀ k ∈ w.handed u, ∃ t id, k = CallerToken.new t id ∧ w.sentTo id = some (t, u)
  sending : ∀ t k S m, w.sys.tasks t = some k → k.inSend = some (S, m) →
    w.sentTo m = some (t, S) ∧ (k.state = .runnable ∨ w.Waits t S m k.state)

namespace Inv

variable {w : World}

theorem lt_of_sentTo (h : Inv w) {i : Nat} {p : Nat × Nat} (hi : w.sentTo i = some p) : i < 2 ^ 48 := by
  have hb := h.bound
  by_contra hge
  rw [h.numbered i (by omega)] at hi
  cases hi

/-- **A change of one task** that leaves its queue: only what its send now says is to be shown. -/
theorem change (h : Inv w) (t : Nat) (f : Task → Task) (hqueue : ∀ k, (f k).recvQueue = k.recvQueue)
    (hsending : ∀ k S m, w.sys.tasks t = some k → (f k).inSend = some (S, m) →
      w.sentTo m = some (t, S) ∧ ((f k).state = .runnable ∨ w.Waits t S m (f k).state)) :
    Inv { w with sys := w.sys.update t f } := by
  have hpending : ∀ u, World.pending { w with sys := w.sys.update t f } u = w.pending u := by
    intro u
    simp only [World.pending, Sys.queueOf_update hqueue]
  refine ⟨h.numbered, h.bound, ?_, h.heldRequest, h.tokens, ?_⟩
  · intro u r hr
    rw [hpending] at hr
    exact h.delivered u r hr
  · intro u k S m hk hs
    simp only [World.Waits, hpending]
    rcases Sys.tasks_update hk with ⟨_, hk⟩ | ⟨rfl, k₀, hk₀, rfl⟩
    · exact h.sending u k S m hk hs
    · exact hsending k₀ S m hk₀ hs

/-- The send stays, and the state word except for a task outside a send, one that is made runnable, and one marked as
    waiting for the number of its send. -/
theorem restate (h : Inv w) (t : Nat) (f : Task → Task)
    (hqueue : ∀ k, (f k).recvQueue = k.recvQueue) (hsend : ∀ k, (f k).inSend = k.inSend)
    (hstate : ∀ k, w.sys.tasks t = some k → (f k).state = k.state ∨ (f k).state = .runnable ∨
      k.inSend = none ∨ ∃ S m, k.inSend = some (S, m) ∧ k.state = .blockedOnSend S ∧
        (f k).state = .waitingForReply m) : Inv { w with sys := w.sys.update t f } := by
  refine h.change t f hqueue fun k S m hk hs => ?_
  rw [hsend] at hs
  obtain ⟨hsent, hcase⟩ := h.sending t k S m hk hs
  refine ⟨hsent, ?_⟩
  rcases hstate k hk with hst | hst | hnone | ⟨S', m', hs', hblocked, hst⟩
  · rwa [hst]
  · exact Or.inl hst
  · rw [hnone] at hs
    cases hs
  · -- the send is the one the task is blocked in
    rw [hs] at hs'
    cases hs'
    rcases hcase with hrun | ⟨_, honly⟩
    · rw [hblocked] at hrun
      cases hrun
    · exact Or.inr ⟨Or.inr hst, honly⟩

theorem leave (h : Inv w) (t : Nat) (f : Task → Task)
    (hqueue : ∀ k, (f k).recvQueue = k.recvQueue) (hsend : ∀ k, (f k).inSend = none) :
    Inv { w with sys := w.sys.update t f } := by
  refine h.change t f hqueue fun k S m _ hs => ?_
  rw [hsend] at hs
  cases hs

/-- A number is taken and not used for a queued message. -/
theorem tick (h : Inv w) (hlt : w.sys.nextMessageId < 2 ^ 48) : Inv { w with sys := w.sys.tick } := by
  have hn : w.sys.tick.nextMessageId = w.sys.nextMessageId + 1 := by
    simp only [Sys.tick]
    omega
  refine ⟨?_, ?_, h.delivered, h.heldRequest, h.tokens, h.sending⟩
  · intro i hi
    refine h.numbered i ?_
    rw [hn] at hi
    omega
  · rw [hn]
    omega

/-- **A message is numbered and queued.** -/
theorem enqueue (h : Inv w) (hlt : w.sys.nextMessageId < 2 ^ 48) {target : Nat} {task : Task}
    (htask : w.sys.tasks target = some task) {msg : Message} (hid : msg.msgId = w.sys.nextMessageId)
    {q : MessageQueue} (hq : task.recvQueue.push msg = some q)
    (hsender : ∀ k, w.sys.tasks msg.sender = some k → k.inSend = none) :
    Inv ({ w with sys := w.sys.tick.setQueue target q }.recordSent target msg) := by
  have hfresh : w.sentTo msg.msgId = none := h.numbered _ (by omega)
  -- a number that was given keeps its sender and target
  have hold : ∀ {i p}, w.sentTo i = some p →
      update w.sentTo msg.msgId (some (msg.sender, target)) i = some p := by
    intro i p hi
    have hne : i ≠ msg.msgId := by
      rintro rfl
      rw [hfresh] at hi
      cases hi
    rw [update_of_ne hne]
    exact hi
  have hmem : ∀ u r, r ∈ ({ w with sys := w.sys.tick.setQueue target q }.recordSent target msg).pending u →
      r ∈ w.pending u ∨ (r = msg ∧ u = target) := by
    intro u r hr
    by_cases hu : u = target
    · subst hu
      have hqueue : (w.sys.tick.setQueue u q).queueOf u = w.sys.queueOf u ++ [msg] := by
        rw [Sys.setQueue, Sys.queueOf_update_self (s := w.sys.tick) (k := task) htask, Sys.queueOf_of_tasks htask]
        exact MessageQueue.push_messages hq
      simp only [World.pending, World.recordSent, hqueue, mem_append, mem_singleton] at hr ⊢
      tauto
    · have hqueue : (w.sys.tick.setQueue target q).queueOf u = w.sys.queueOf u := Sys.queueOf_update_ne hu
      simp only [World.pending, World.recordSent, hqueue] at hr
      exact Or.inl hr
  have hn : w.sys.tick.nextMessageId = w.sys.nextMessageId + 1 := by
    simp only [Sys.tick]
    omega
  refine ⟨?_, ?_, ?_, h.heldRequest, ?_, ?_⟩
  · intro i hi
    change w.sys.tick.nextMessageId ≤ i at hi
    have hne : i ≠ msg.msgId := by omega
    simp only [World.recordSent, update_of_ne hne]
    exact h.numbered i (by omega)
  · change w.sys.tick.nextMessageId ≤ 2 ^ 48
    omega
  · intro u r hr
    rcases hmem u r hr with hr | ⟨rfl, rfl⟩
    · exact hold (h.delivered u r hr)
    · exact update_self ..
  · intro u k hk
    obtain ⟨t, id, htoken, hsent⟩ := h.tokens u k hk
    exact ⟨t, id, htoken, hold hsent⟩
  · intro t k S m hk hs
    -- the task's state word and send are what they were, and it is not the sender of the message
    obtain ⟨k₀, hk₀, hs₀, hstate⟩ : ∃ k₀, w.sys.tasks t = some k₀ ∧ k₀.inSend = some (S, m) ∧
        k₀.state = k.state := by
      rcases Sys.tasks_update hk with ⟨_, hk⟩ | ⟨rfl, k₀, hk₀, rfl⟩
      · exact ⟨k, hk, hs, rfl⟩
      · exact ⟨k₀, hk₀, hs, rfl⟩
    have hne : msg.sender ≠ t := by
      intro he
      rw [hsender k₀ (he ▸ hk₀)] at hs₀
      cases hs₀
    obtain ⟨hsent, hcase⟩ := h.sending t k₀ S m hk₀ hs₀
    rw [hstate] at hcase
    refine ⟨hold hsent, ?_⟩
    rcases hcase with hrun | ⟨hword, honly⟩
    · exact Or.inl hrun
    · refine Or.inr ⟨hword, ?_⟩
      intro r hr hreq hrt
      rcases hmem S r hr with hr | ⟨rfl, _⟩
      · exact honly r hr hreq hrt
      · exact absurd hrt hne

/-- **A task blocks** on the target of the message it has just sent, its only request there. -/
theorem block (h : Inv w) {t S m : Nat} (hsent : w.sentTo m = some (t, S))
    (honly : ∀ r ∈ w.pending S, r.msgType = .request → r.sender = t → r.msgId = m) :
    Inv { w with sys := w.sys.block t S m } := by
  refine h.change t _ (fun _ => rfl) fun k S' m' _ hs => ?_
  cases hs
  exact ⟨hsent, Or.inr ⟨Or.inl rfl, honly⟩⟩

/-- The unanswered requests of a task change to some of its pending ones. -/
theorem reduce (h : Inv w) (w' : World) (htasks : ∀ t k', w'.sys.tasks t = some k' →
      ∃ k, w.sys.tasks t = some k ∧ k'.state = k.state ∧ k'.inSend = k.inSend)
    (hnext : w'.sys.nextMessageId = w.sys.nextMessageId) (hsentTo : w'.sentTo = w.sentTo)
    (hpending : ∀ u, ∀ r ∈ w'.pending u, r ∈ w.pending u) (hheld : ∀ u, ∀ r ∈ w'.held u, r.msgType = .request)
    (htokens : ∀ u, ∀ k ∈ w'.handed u, ∃ t id, k = CallerToken.new t id ∧ w.sentTo id = some (t, u)) : Inv w' := by
  refine ⟨?_, ?_, ?_, hheld, ?_, ?_⟩
  · rw [hnext, hsentTo]
    exact h.numbered
  · rw [hnext]
    exact h.bound
  · intro u r hr
    rw [hsentTo]
    exact h.delivered u r (hpending u r hr)
  · rw [hsentTo]
    exact htokens
  · intro t k' S m hk' hs
    obtain ⟨k, hk, hstate, hsend⟩ := htasks t k' hk'
    rw [hsend] at hs
    rw [hstate, hsentTo]
    obtain ⟨hsent, hcase⟩ := h.sending t k S m hk hs
    refine ⟨hsent, ?_⟩
    rcases hcase with hrun | ⟨hword, honly⟩
    · exact Or.inl hrun
    · exact Or.inr ⟨hword, fun r hr => honly r (hpending S r hr)⟩

/-! ## Compositions -/

theorem wakeReceiver (h : Inv w) (t : Nat) : Inv { w with sys := w.sys.wakeReceiver t } := by
  refine h.restate t _ ?_ ?_ ?_
  · intro k
    split <;> rfl
  · intro k
    split <;> rfl
  · intro k _
    split
    · exact Or.inr (Or.inl rfl)
    · exact Or.inl rfl

theorem keepMessage (h : Inv w) (t : Nat) (msg : Message) : Inv { w with sys := w.sys.keepMessage t msg } :=
  h.restate t _ (fun _ => rfl) (fun _ => rfl) fun _ _ => Or.inl rfl

theorem mem_pending_of_pop {t : Nat} {msg : Message} {s : Sys} (hpop : w.sys.popMessage t = some (msg, s)) :
    msg ∈ w.pending t := by
  obtain ⟨k, q, hk, hq, rfl⟩ := Sys.popMessage_some hpop
  rw [World.pending, Sys.queueOf_of_tasks hk, MessageQueue.pop_messages hq]
  exact mem_append_left _ mem_cons_self

/-- The message at the head of a queue moves to the unanswered requests if it is one. -/
theorem pop (h : Inv w) {t : Nat} {msg : Message} {s : Sys} (hpop : w.sys.popMessage t = some (msg, s)) :
    Inv ({ w with sys := s }.recordReceived t msg) := by
  have hhead := mem_pending_of_pop hpop
  obtain ⟨k, q, hk, hq, rfl⟩ := Sys.popMessage_some hpop
  have hmessages := MessageQueue.pop_messages hq
  -- what the task holds afterwards
  have hheld : ∀ u r, r ∈ ({ w with sys := w.sys.setQueue t q }.recordReceived t msg).held u →
      r ∈ w.held u ∨ (u = t ∧ r = msg ∧ msg.msgType = .request) := by
    intro u r hr
    simp only [World.recordReceived] at hr
    split at hr
    · next hreq =>
      by_cases hu : u = t
      · subst hu
        simp only [update_self, mem_cons] at hr
        rcases hr with rfl | hr
        · exact Or.inr ⟨rfl, rfl, hreq⟩
        · exact Or.inl hr
      · simp only [update_of_ne hu] at hr
        exact Or.inl hr
    · exact Or.inl hr
  refine h.reduce _ ?_ rfl rfl ?_ ?_ h.tokens
  · intro u k' hk'
    rcases Sys.tasks_update hk' with ⟨_, hk'⟩ | ⟨rfl, k₀, hk₀, rfl⟩
    · exact ⟨k', hk', rfl, rfl⟩
    · exact ⟨k₀, hk₀, rfl, rfl⟩
  · intro u r hr
    rw [World.pending, mem_append] at hr
    rcases hr with hr | hr
    · by_cases hu : u = t
      · subst hu
        change r ∈ (w.sys.setQueue u q).queueOf u at hr
        rw [Sys.setQueue, Sys.queueOf_update_self hk] at hr
        rw [World.pending, Sys.queueOf_of_tasks hk, hmessages]
        exact mem_append_left _ (mem_cons_of_mem _ hr)
      · change r ∈ (w.sys.setQueue t q).queueOf u at hr
        rw [Sys.setQueue, Sys.queueOf_update_ne hu] at hr
        exact mem_append_left _ hr
    · rcases hheld u r hr with hr | ⟨rfl, rfl, _⟩
      · exact mem_append_right _ hr
      · exact hhead
  · intro u r hr
    rcases hheld u r hr with hr | ⟨rfl, rfl, hreq⟩
    · exact h.heldRequest u r hr
    · exact hreq

/-- The sender of a received request that is blocked on the receiver now waits for the request. -/
theorem markWaiting (h : Inv w) {t : Nat} {msg : Message} (hmsg : msg.msgType = .request → msg ∈ w.pending t) :
    Inv { w with sys := w.sys.markWaiting t msg } := by
  by_cases hreq : msg.msgType = .request
  · simp only [Sys.markWaiting, if_pos hreq]
    refine h.restate _ _ ?_ ?_ ?_
    · intro k
      split <;> rfl
    · intro k
      split <;> rfl
    · intro k hk
      split
      · next hblocked =>
        cases hs : k.inSend with
        | none => exact Or.inr (Or.inr (Or.inl rfl))
        | some p =>
          -- the request is the one of the present send
          obtain ⟨S, m⟩ := p
          obtain ⟨_, hrun | ⟨hword, honly⟩⟩ := h.sending _ k S m hk hs
          · rw [hblocked] at hrun
            cases hrun
          · have hS : t = S := by
              rw [hblocked] at hword
              rcases hword with hword | hword
              · exact TaskState.blockedOnSend.inj hword
              · cases hword
            subst hS
            have hm : msg.msgId = m := honly msg (hmsg hreq) hreq rfl
            subst hm
            exact Or.inr (Or.inr (Or.inr ⟨_, _, rfl, hblocked, rfl⟩))
      · exact Or.inl rfl
  · simp only [Sys.markWaiting, if_neg hreq]
    exact h

/-- A token is handed out for a message that the task received. -/
theorem token (h : Inv w) {t pid id : Nat} (hsent : w.sentTo id = some (pid, t)) :
    Inv (w.recordToken t (CallerToken.new pid id)) := by
  refine h.reduce _ (fun u k hk => ⟨k, hk, rfl, rfl⟩) rfl rfl (fun _ _ hr => hr) h.heldRequest ?_
  intro u k hk
  by_cases hu : u = t
  · subst hu
    simp only [World.recordToken, update_self, mem_cons] at hk
    rcases hk with rfl | hk
    · exact ⟨pid, id, rfl, hsent⟩
    · exact h.tokens u k hk
  · simp only [World.recordToken, update_of_ne hu] at hk
    exact h.tokens u k hk

theorem answer (h : Inv w) (t sender id : Nat) : Inv (w.recordAnswer t sender id) := by
  have hheld : ∀ u, ∀ r ∈ (w.recordAnswer t sender id).held u, r ∈ w.held u := by
    intro u r hr
    by_cases hu : u = t
    · subst hu
      simp only [World.recordAnswer, update_self] at hr
      exact mem_of_mem_filter hr
    · simp only [World.recordAnswer, update_of_ne hu] at hr
      exact hr
  refine h.reduce _ (fun u k hk => ⟨k, hk, rfl, rfl⟩) rfl rfl ?_ ?_ h.tokens
  · intro u r hr
    rcases mem_append.mp hr with hr | hr
    · exact mem_append_left _ hr
    · exact mem_append_right _ (hheld u r hr)
  · intro u r hr
    exact h.heldRequest u r (hheld u r hr)

theorem deliver (h : Inv w) (hlt : w.sys.nextMessageId < 2 ^ 48) (t sender : Nat) (payload : List Nat) :
    Inv { w with sys := w.sys.deliver t sender payload } :=
  (h.tick hlt).restate sender _ (fun _ => rfl) (fun _ => rfl) fun _ _ => Or.inr (Or.inl rfl)

end Inv

/-! ## Acts -/

/-- **What the acts of a run keep to.** -/
def Disciplined (w : World) : Act → Prop
  | .send t target _ _ _ =>
    w.sys.nextMessageId < 2 ^ 48 ∧ ∀ r ∈ w.pending target, r.msgType = .request → r.sender ≠ t
  | .sendAsync _ _ _ _ _ => w.sys.nextMessageId < 2 ^ 48
  | .reply u _ =>
    w.sys.nextMessageId < 2 ^ 48 ∧ ∀ request, w.sys.keptMessage u = some request →
      w.sys.stateOf request.sender = some (.blockedOnSend u) → request ∈ w.held u
  | .replyToken u token _ =>
    w.sys.nextMessageId < 2 ^ 48 ∧ ∀ t id, CallerToken.decode token = some (t, id) →
      w.sys.stateOf t = some (.waitingForReply id) → token ∈ w.handed u
  | _ => True

/-- The two outcomes of the part that both sends share. -/
theorem Sys.enqueue_cases (s : Sys) (current target : Nat) (msgType : IpcType) (payload : List Nat)
    (permitted transferred : Bool) :
    (∃ e s', s.enqueue current target msgType payload permitted transferred = (.error e, s') ∧
      (s' = s ∨ s' = s.tick)) ∨ (∃ task q, s.tasks target = some task ∧
      task.recvQueue.push ⟨current, msgType, payload, s.nextMessageId⟩ = some q ∧
      s.enqueue current target msgType payload permitted transferred =
        (.ok ⟨current, msgType, payload, s.nextMessageId⟩, s.tick.setQueue target q)) := by
  unfold Sys.enqueue
  cases ht : s.tasks target with
  | none => exact Or.inl ⟨_, _, rfl, Or.inl rfl⟩
  | some task =>
    by_cases hexited : task.state = .exited
    · simp only [if_pos hexited]
      exact Or.inl ⟨_, _, rfl, Or.inl rfl⟩
    · cases permitted with
      | false =>
        simp only [if_neg hexited]
        exact Or.inl ⟨_, _, rfl, Or.inl rfl⟩
      | true =>
        cases transferred with
        | false =>
          simp only [if_neg hexited]
          exact Or.inl ⟨_, _, rfl, Or.inr rfl⟩
        | true =>
          cases hq : task.recvQueue.push ⟨current, msgType, payload, s.nextMessageId⟩ with
          | none =>
            simp only [if_neg hexited, hq]
            exact Or.inl ⟨_, _, rfl, Or.inr rfl⟩
          | some q =>
            simp only [if_neg hexited, hq]
            exact Or.inr ⟨task, q, rfl, hq, rfl⟩

theorem Sys.inSend_of_executes {s : Sys} {t : Nat} (h : s.executes t = true) :
    ∀ k, s.tasks t = some k → k.inSend = none := by
  intro k hk
  simpa [Sys.executes, hk] using h

namespace Inv

variable {w : World}

theorem unqueued (h : Inv w) (hlt : w.sys.nextMessageId < 2 ^ 48) {s : Sys} (hs : s = w.sys ∨ s = w.sys.tick) :
    Inv { w with sys := s } := by
  rcases hs with rfl | rfl
  · exact h
  · exact h.tick hlt

theorem sendAsync (h : Inv w) (hlt : w.sys.nextMessageId < 2 ^ 48) {t : Nat} (ht : w.sys.executes t = true)
    (target : Nat) (payload : List Nat) (permitted transferred : Bool) :
    Inv (w.afterSend target (w.sys.ipcSendAsync t target payload permitted transferred)) := by
  rcases w.sys.enqueue_cases t target .notification payload permitted transferred with
    ⟨e, s, hs, hcase⟩ | ⟨task, q, htask, hq, hs⟩
  · simp only [Sys.ipcSendAsync, hs, World.afterSend]
    exact h.unqueued hlt hcase
  · simp only [Sys.ipcSendAsync, hs, World.afterSend]
    exact (h.enqueue hlt htask rfl hq (Sys.inSend_of_executes ht)).wakeReceiver target

theorem send (h : Inv w) (hlt : w.sys.nextMessageId < 2 ^ 48) {t : Nat} (ht : w.sys.executes t = true)
    {target : Nat} (hfree : ∀ r ∈ w.pending target, r.msgType = .request → r.sender ≠ t)
    (payload : List Nat) (permitted transferred : Bool) :
    Inv (w.afterSend target (w.sys.ipcSend t target payload permitted transferred)) := by
  rcases w.sys.enqueue_cases t target .request payload permitted transferred with
    ⟨e, s, hs, hcase⟩ | ⟨task, q, htask, hq, hs⟩
  · simp only [Sys.ipcSend, hs, World.afterSend]
    exact h.unqueued hlt hcase
  · simp only [Sys.ipcSend, hs, World.afterSend]
    refine Inv.wakeReceiver (Inv.block (h.enqueue hlt htask rfl hq (Sys.inSend_of_executes ht)) ?_ ?_) target
    · exact update_self ..
    · -- the target had no request of the sender before this one
      intro r hr hreq hrt
      have hqueue : (w.sys.tick.setQueue target q).queueOf target = w.sys.queueOf target ++
          [⟨t, .request, payload, w.sys.nextMessageId⟩] := by
        rw [Sys.setQueue, Sys.queueOf_update_self (s := w.sys.tick) (k := task) htask, Sys.queueOf_of_tasks htask]
        exact MessageQueue.push_messages hq
      simp only [World.pending, World.recordSent, hqueue, mem_append, mem_singleton] at hr
      rcases hr with (hr | rfl) | hr
      · exact absurd hrt (hfree r (mem_append_left _ hr) hreq)
      · rfl
      · exact absurd hrt (hfree r (mem_append_right _ hr) hreq)

theorem receive (h : Inv w) {t : Nat} {w' : World} (hn : next w (.receive t) = some w') : Inv w' := by
  simp only [next, Option.ite_none_right_eq_some, Sys.ipcReceive] at hn
  obtain ⟨ht, hn⟩ := hn
  cases hpop : w.sys.popMessage t with
  | none =>
    rw [hpop] at hn
    cases hn
    refine h.restate t _ (fun _ => rfl) (fun _ => rfl) ?_
    intro k hk
    exact Or.inr (Or.inr (Or.inl (Sys.inSend_of_executes ht k hk)))
  | some p =>
    obtain ⟨msg, s⟩ := p
    rw [hpop] at hn
    cases hn
    exact (h.pop hpop).keepMessage t msg

theorem recvAsync (h : Inv w) {t : Nat} {w' : World} (hn : next w (.recvAsync t) = some w') : Inv w' := by
  simp only [next, Option.ite_none_right_eq_some, Sys.ipcRecvAsync] at hn
  obtain ⟨-, hn⟩ := hn
  cases hpop : w.sys.popMessage t with
  | none =>
    rw [hpop] at hn
    cases hn
    exact h
  | some p =>
    obtain ⟨msg, s⟩ := p
    rw [hpop] at hn
    cases hn
    have hpopped := h.pop hpop
    have hsent : w.sentTo msg.msgId = some (msg.sender, t) := h.delivered t msg (mem_pending_of_pop hpop)
    -- a request is now among the unanswered ones
    have hheld : msg.msgType = .request → msg ∈ ({ w with sys := s }.recordReceived t msg).pending t := by
      intro hreq
      refine mem_append_right _ ?_
      simp [World.recordReceived, hreq]
    exact ((hpopped.markWaiting hheld).keepMessage t msg).token hsent

theorem reply (h : Inv w) (hlt : w.sys.nextMessageId < 2 ^ 48) {t : Nat} {payload : List Nat} {w' : World}
    (hn : next w (.reply t payload) = some w') : Inv w' := by
  simp only [next, Option.ite_none_right_eq_some] at hn
  obtain ⟨-, hn⟩ := hn
  cases hkept : w.sys.keptMessage t with
  | none =>
    rw [hkept] at hn
    cases hn
    exact h
  | some request =>
    rw [hkept] at hn
    cases hn
    rcases w.sys.ipcReply_cases t request payload with ⟨e, hr⟩ | ⟨task, -, -, hr⟩
    · rw [hr]
      exact h
    · rw [hr]
      exact (h.deliver hlt t request.sender payload).answer t _ _

theorem replyToken (h : Inv w) (hlt : w.sys.nextMessageId < 2 ^ 48) {t token : Nat} {payload : List Nat} {w' : World}
    (hn : next w (.replyToken t token payload) = some w') : Inv w' := by
  simp only [next, Option.ite_none_right_eq_some, Option.some.injEq] at hn
  obtain ⟨-, rfl⟩ := hn
  rcases w.sys.ipcReplyWithToken_cases t token payload with ⟨e, hr⟩ | ⟨pid, id, task, -, -, -, hr⟩
  · rw [hr]
    exact h
  · rw [hr]
    exact (h.deliver hlt t pid payload).answer t _ _

/-- **One act keeps the invariant.** -/
theorem next (h : Inv w) {a : Act} (ha : Disciplined w a) {w' : World} (hn : next w a = some w') : Inv w' := by
  cases a with
  | send t target payload permitted transferred =>
    simp only [Ipc.next] at hn
    split at hn
    · next ht =>
      cases hn
      exact h.send ha.1 ht ha.2 payload permitted transferred
    · cases hn
  | sendAsync t target payload permitted transferred =>
    simp only [Ipc.next] at hn
    split at hn
    · next ht =>
      cases hn
      exact h.sendAsync ha ht target payload permitted transferred
    · cases hn
  | receive t => exact h.receive hn
  | recvAsync t => exact h.recvAsync hn
  | reply t payload => exact h.reply ha.1 hn
  | replyToken t token payload => exact h.replyToken ha.1 hn
  | yieldReturns t =>
    simp only [Ipc.next] at hn
    split at hn
    · cases hn
      exact h.leave t _ (fun _ => rfl) fun _ => rfl
    · cases hn
  | resume t =>
    simp only [Ipc.next] at hn
    split at hn
    · cases hn
      exact h.leave t _ (fun _ => rfl) fun _ => rfl
    · cases hn

end Inv

/-! ## Which acts make a blocked task runnable -/

/-- The task is neither runnable nor waiting for a message. -/
def Sys.Parked (s : Sys) (t : Nat) : Prop :=
  ∃ k, s.tasks t = some k ∧ k.state ≠ .runnable ∧ k.state ≠ .blockedOnReceive

namespace Sys.Parked

variable {s : Sys} {t : Nat}

theorem update (h : s.Parked t) (u : Nat) {f : Task → Task}
    (hf : u = t → ∀ k, k.state ≠ .runnable → k.state ≠ .blockedOnReceive →
      (f k).state ≠ .runnable ∧ (f k).state ≠ .blockedOnReceive) : (s.update u f).Parked t := by
  obtain ⟨k, hk, hrun, hrecv⟩ := h
  by_cases hu : u = t
  · subst hu
    refine ⟨f k, ?_, hf rfl k hrun hrecv⟩
    simp [Sys.update, hk]
  · refine ⟨k, ?_, hrun, hrecv⟩
    simp only [Sys.update, update_of_ne (Ne.symm hu)]
    exact hk

theorem restate (h : s.Parked t) (u : Nat) {f : Task → Task} (hf : ∀ k, (f k).state = k.state) :
    (s.update u f).Parked t := by
  refine h.update u ?_
  intro _ k hrun hrecv
  rw [hf]
  exact ⟨hrun, hrecv⟩

theorem wakeReceiver (h : s.Parked t) (u : Nat) : (s.wakeReceiver u).Parked t := by
  refine h.update u ?_
  intro _ k hrun hrecv
  rw [if_neg hrecv]
  exact ⟨hrun, hrecv⟩

theorem block (h : s.Parked t) (u target id : Nat) : (s.block u target id).Parked t := by
  refine h.update u ?_
  intro _ k _ _
  exact ⟨by simp, by simp⟩

theorem enqueue (h : s.Parked t) (current target : Nat) (msgType : IpcType) (payload : List Nat)
    (permitted transferred : Bool) : (s.enqueue current target msgType payload permitted transferred).2.Parked t := by
  rcases s.enqueue_cases current target msgType payload permitted transferred with
    ⟨e, s', hs, rfl | rfl⟩ | ⟨task, q, _, _, hs⟩
  · rw [hs]
    exact h
  · rw [hs]
    exact h
  · rw [hs]
    exact restate (s := s.tick) h target fun _ => rfl

theorem markWaiting (h : s.Parked t) (u : Nat) (msg : Message) : (s.markWaiting u msg).Parked t := by
  unfold Sys.markWaiting
  split
  · refine h.update _ ?_
    intro _ k hrun hrecv
    split
    · exact ⟨by simp, by simp⟩
    · exact ⟨hrun, hrecv⟩
  · exact h

theorem popMessage (h : s.Parked t) {u : Nat} {msg : Message} {s' : Sys}
    (hpop : s.popMessage u = some (msg, s')) : s'.Parked t := by
  obtain ⟨_, _, _, _, rfl⟩ := Sys.popMessage_some hpop
  exact h.restate u fun _ => rfl

theorem deliver (h : s.Parked t) (current : Nat) {sender : Nat} (hne : sender ≠ t) (payload : List Nat) :
    (s.deliver current sender payload).Parked t :=
  update (s := s.tick) h sender fun he => absurd he hne

end Sys.Parked

/-- **Only a reply makes a task runnable that is blocked in a send.** -/
theorem parked_next {w w' : World} {a : Act} {t : Nat} (h : w.sys.Parked t) (hsend : (w.sys.sendOf t).isSome)
    (hn : next w a = some w') : w'.sys.Parked t ∨ ∃ u id, completes w.sys a = some (t, u, id) := by
  -- the task that acts is not the one in the send
  have hne : ∀ {u}, w.sys.executes u = true → u ≠ t := by
    rintro u hu rfl
    obtain ⟨k, hk, _, _⟩ := h
    rw [Sys.sendOf, hk, Option.bind_some, Sys.inSend_of_executes hu k hk] at hsend
    cases hsend
  have hsys := next_sys hn
  cases a with
  | send u target payload permitted transferred =>
    refine Or.inl ?_
    have henq := h.enqueue u target .request payload permitted transferred
    rw [hsys, Act.sysAfter, Sys.ipcSend]
    split
    · next heq => rwa [heq] at henq
    · next heq =>
      rw [heq] at henq
      exact (henq.block u target _).wakeReceiver target
  | sendAsync u target payload permitted transferred =>
    refine Or.inl ?_
    have henq := h.enqueue u target .notification payload permitted transferred
    rw [hsys, Act.sysAfter, Sys.ipcSendAsync]
    split
    · next heq => rwa [heq] at henq
    · next heq =>
      rw [heq] at henq
      exact henq.wakeReceiver target
  | receive u =>
    refine Or.inl ?_
    rw [hsys, Act.sysAfter, Sys.ipcReceive]
    split
    · next hpop => exact (h.popMessage hpop).restate u fun _ => rfl
    · exact h.update u fun he => absurd he (hne (Option.ite_none_right_eq_some.mp hn).1)
  | recvAsync u =>
    refine Or.inl ?_
    rw [hsys, Act.sysAfter, Sys.ipcRecvAsync]
    split
    · next hpop => exact ((h.popMessage hpop).markWaiting u _).restate u fun _ => rfl
    · exact h
  | reply u payload =>
    rw [hsys, Act.sysAfter]
    split
    · exact Or.inl h
    · next request hkept =>
      rcases w.sys.ipcReply_cases u request payload with ⟨e, hr⟩ | ⟨task, -, -, hr⟩
      · exact Or.inl (by rwa [hr])
      · by_cases ht : request.sender = t
        · exact Or.inr ⟨u, request.msgId, by simp only [completes, hkept, hr, ht]⟩
        · exact Or.inl (by rw [hr]; exact h.deliver u ht payload)
  | replyToken u token payload =>
    rw [hsys, Act.sysAfter]
    rcases w.sys.ipcReplyWithToken_cases u token payload with ⟨e, hr⟩ | ⟨pid, id, task, hdecode, -, -, hr⟩
    · exact Or.inl (by rwa [hr])
    · by_cases ht : pid = t
      · exact Or.inr ⟨u, id, by simp only [completes, hdecode, hr, ht]⟩
      · exact Or.inl (by rw [hr]; exact h.deliver u ht payload)
  | yieldReturns u | resume u =>
    rw [hsys]
    exact Or.inl (h.restate u fun _ => rfl)

/-- **A disciplined reply is the server's reply to the message.** -/
theorem completes_authentic {w : World} (h : Inv w) {a : Act} (ha : Disciplined w a) {t u id S m : Nat}
    (hc : completes w.sys a = some (t, u, id)) (hs : w.sys.sendOf t = some (S, m)) : u = S ∧ id = m := by
  simp only [Sys.sendOf, Option.bind_eq_some_iff] at hs
  obtain ⟨k, hk, hs⟩ := hs
  obtain ⟨hsent, hcase⟩ := h.sending t k S m hk hs
  cases a with
  | reply u' payload =>
    cases hkept : w.sys.keptMessage u' with
    | none => simp [completes, hkept] at hc
    | some request =>
      rcases w.sys.ipcReply_cases u' request payload with ⟨e, hr⟩ | ⟨task, htask, hblocked, hr⟩
      · simp [completes, hkept, hr] at hc
      · simp only [completes, hkept, hr, Option.some.injEq, Prod.mk.injEq] at hc
        obtain ⟨rfl, rfl, rfl⟩ := hc
        cases htask.symm.trans hk
        rw [hblocked] at hcase
        obtain hrun | ⟨hword | hword, honly⟩ := hcase
        · cases hrun
        · cases hword
          have hheld := ha.2 request hkept (by simp [Sys.stateOf, htask, hblocked])
          exact ⟨rfl, honly request (mem_append_right _ hheld) (h.heldRequest _ _ hheld) rfl⟩
        · cases hword
  | replyToken u' token payload =>
    rcases w.sys.ipcReplyWithToken_cases u' token payload with ⟨e, hr⟩ | ⟨pid, id', task, hdecode, htask, hword, hr⟩
    · simp [completes, hr] at hc
    · simp only [completes, hdecode, hr, Option.some.injEq, Prod.mk.injEq] at hc
      obtain ⟨rfl, rfl, rfl⟩ := hc
      cases htask.symm.trans hk
      rw [hword] at hcase
      obtain hrun | ⟨hwaits | hwaits, -⟩ := hcase
      · cases hrun
      · cases hwaits
      · cases hwaits
        -- the token's number is that of a message sent to the replying task
        have hhanded := ha.2 pid m hdecode (by simp [Sys.stateOf, hk, hword])
        obtain ⟨pid', r, htoken, hto⟩ := h.tokens u' token hhanded
        have hr := h.lt_of_sentTo hto
        rw [htoken] at hdecode
        obtain ⟨_, hid⟩ := CallerToken.decode_new hdecode
        have hrm : r = m := by omega
        rw [hrm, hsent] at hto
        cases hto
        exact ⟨rfl, rfl⟩
  | _ => cases hc

/-! ## Runs -/

/-- The worlds that a run of disciplined acts reaches. -/
inductive Reach (existing : Nat → Bool) : World → Prop where
  | boot : Reach existing (.boot existing)
  | step {w w' : World} {a : Act} (h : Reach existing w) (ha : Disciplined w a) (hn : next w a = some w') :
      Reach existing w'

theorem Inv.boot (existing : Nat → Bool) : Inv (.boot existing) := by
  have hpending : ∀ u, (World.boot existing).pending u = [] := by
    intro u
    cases hu : existing u <;> simp [World.pending, World.boot, Sys.queueOf, hu, Task.new, MessageQueue.empty]
  refine ⟨fun _ _ => rfl, (by decide : (1 : Nat) ≤ 2 ^ 48), ?_, ?_, ?_, ?_⟩
  · intro u r hr
    rw [hpending] at hr
    cases hr
  · intro u r hr
    cases hr
  · intro u k hk
    cases hk
  · intro t k S m hk hs
    simp only [World.boot] at hk
    split at hk
    · cases hk
      cases hs
    · cases hk

theorem Reach.inv {existing : Nat → Bool} {w : World} (h : Reach existing w) : Inv w := by
  induction h with
  | boot => exact Inv.boot existing
  | step _ ha hn ih => exact ih.next ha hn

/-- The task is in a send on `S` for message `m` that is not completed. -/
def Sys.BlockedInSend (s : Sys) (t S m : Nat) : Prop :=
  s.sendOf t = some (S, m) ∧ s.stateOf t ≠ some .runnable

/-- **Authentic replies.**  An act of a disciplined run that makes a task runnable which is blocked in a send
    on `S` for message `m` is a reply by `S` to `m`. -/
theorem reply_authentic {existing : Nat → Bool} {w w' : World} (h : Reach existing w) {a : Act}
    (ha : Disciplined w a) (hn : next w a = some w') {t S m : Nat} (hb : w.sys.BlockedInSend t S m)
    (hrun : w'.sys.stateOf t = some .runnable) : completes w.sys a = some (t, S, m) := by
  obtain ⟨hs, hblocked⟩ := hb
  have hinv := h.inv
  have hparked : w.sys.Parked t := by
    simp only [Sys.sendOf, Option.bind_eq_some_iff] at hs
    obtain ⟨k, hk, hsend⟩ := hs
    rcases (hinv.sending t k S m hk hsend).2 with hst | ⟨hst, _⟩
    · exact absurd (by simp [Sys.stateOf, hk, hst]) hblocked
    · refine ⟨k, hk, ?_⟩
      rcases hst with hst | hst <;> simp [hst]
  rcases parked_next hparked (by simp [hs]) hn with ⟨k, hk, hne, _⟩ | ⟨u, id, hc⟩
  · simp only [Sys.stateOf, hk, Option.map_some, Option.some.injEq] at hrun
    exact absurd hrun hne
  · obtain ⟨rfl, rfl⟩ := completes_authentic hinv ha hc hs
    exact hc

instance (s : Sys) (t S m : Nat) : Decidable (s.BlockedInSend t S m) :=
  inferInstanceAs (Decidable (_ ∧ _))

/-- The world after an act, the same one when the act is not enabled. -/
def World.after (w : World) (a : Act) : World := (next w a).getD w

theorem next_after {w : World} {a : Act} (h : (next w a).isSome = true) : next w a = some (w.after a) := by
  cases hn : next w a with
  | none =>
    rw [hn] at h
    cases h
  | some w' => rw [World.after, hn, Option.getD_some]

/-- Task 1 has sent message 1 to task 2, which has received it with a token. -/
def oneRequest : World :=
  ((World.boot fun t => t == 1 || t == 2 || t == 3).after (.send 1 2 [7, 0, 0, 0] true true)).after (.recvAsync 2)

theorem oneRequest_reach : Reach (fun t => t == 1 || t == 2 || t == 3) oneRequest := by
  refine .step (.step .boot (a := .send 1 2 [7, 0, 0, 0] true true) ?_ (next_after (by decide +kernel)))
    (a := .recvAsync 2) trivial (next_after (by decide +kernel))
  exact ⟨by decide +kernel, by decide +kernel⟩

/-- The server answers with the token it was given. -/
theorem reply_authentic_oneRequest :
    completes oneRequest.sys (.replyToken 2 (CallerToken.new 1 1) [8, 0, 0, 0]) = some (1, 2, 1) := by
  refine reply_authentic oneRequest_reach ?_ (next_after (by decide +kernel)) (by decide +kernel)
    (by decide +kernel)
  exact ⟨by decide +kernel, fun _ _ _ _ => by decide +kernel⟩

/-- Tasks 1 and 2 after task 2 has answered message 1 and task 1 has sent message 3. -/
def answeredOnce : World :=
  [Act.send 1 2 [7, 0, 0, 0] true true, .receive 2, .reply 2 [8, 0, 0, 0], .resume 1,
    .send 1 2 [9, 0, 0, 0] true true].foldl World.after (.boot fun t => t == 1 || t == 2)

/-- **A forged token and a stale reply complete a send.**  Task 3 completes the send of task 1 on task 2 with
    a token it computed; and the reply of task 2 to message 1, given a second time, completes the send of
    message 3. -/
theorem foreign_and_stale_replies : (oneRequest.sys.BlockedInSend 1 2 1 ∧
      (oneRequest.after (.replyToken 3 (CallerToken.new 1 1) [6, 0, 0, 0])).sys.stateOf 1 = some .runnable ∧
      completes oneRequest.sys (.replyToken 3 (CallerToken.new 1 1) [6, 0, 0, 0]) = some (1, 3, 1)) ∧
    (answeredOnce.sys.BlockedInSend 1 2 3 ∧
      (answeredOnce.after (.reply 2 [8, 0, 0, 0])).sys.stateOf 1 = some .runnable ∧
      completes answeredOnce.sys (.reply 2 [8, 0, 0, 0]) = some (1, 2, 1)) := by
  decide +kernel

end Folkering.Ipc
