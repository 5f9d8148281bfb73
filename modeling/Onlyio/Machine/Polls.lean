import Onlyio.Machine.Sends

/-!
# Polling a library value refines `Polled`

One lemma per future and stream of `calls/`, by its states, and **`wp_pollValue`** over them.
-/

namespace Onlyio

open Lib

variable {σ : Type} {s : State σ} {me : Caller} {l : List TaskInfo}

/-- The value `val` was polled: the abstract machine can do it too. -/
def PolledTo (me : Caller) (s : State σ) (val : Value) (r : Out × Value) (s' : State σ) : Prop :=
  ∃ c', Becomes s c' s' ∧ Polled me s.core val r.1 r.2 c'

/-- A poll that touches the buffers at most, and reads the context. -/
theorem PolledTo.resolve (me : Caller) {val val' : Value} {out : Out} {s' : State σ} (h : Same s s')
    (hr : Resolves s.core.current val out val') : PolledTo me s val (out, val') s' :=
  ⟨s.core, h.becomes, .resolve hr⟩

theorem wp_currentResult (Q : Int32 → State σ → Prop) (E : Fault → State σ → Prop) :
    wp (currentResult : Rt σ Int32) Q E s ↔ Q s.core.current.result s := Iff.rfl

theorem wp_currentCqeFlags (Q : UInt32 → State σ → Prop) (E : Fault → State σ → Prop) :
    wp (currentCqeFlags : Rt σ UInt32) Q E s ↔ Q s.core.current.flags s := Iff.rfl

theorem soft_same {s1 : State σ} (h : Same s s1) {e : Fault} (he : e.soft = true) :
    Soft s.core e s1 := ⟨he, h.core ▸ Trails.refl _⟩

/-! ## Single-shot futures -/

theorem wp_poll_accept (f : AcceptFuture) (h : Running s me.task l) :
    wp (pollValue me (.accept f)) (fun r s' => PolledTo me s (.accept f) r s') (Soft s.core) s := by
  cases f with
  | pending fd =>
    simp only [pollValue, AcceptFuture.poll, wp_bind, wp_pure, sendAccept]
    refine wp_mono (wp_sendOne me _ h) (fun _ s1 h1 => ?_) fun _ _ he => he
    exact ⟨_, h1, .send (.accept fd)⟩
  | submited =>
    simp only [pollValue, AcceptFuture.poll, wp_bind, wp_currentResult, wp_ite, wp_pure]
    exact ⟨fun hres => .resolve me (.refl s) (.accepted hres),
      fun hres => .resolve me (.refl s) (.acceptFailed hres)⟩

theorem wp_poll_write (f : WriteFuture) (h : Running s me.task l) :
    wp (pollValue me (.write f)) (fun r s' => PolledTo me s (.write f) r s') (Soft s.core) s := by
  cases f with
  | init fd bufId len =>
    simp only [pollValue, WriteFuture.poll, wp_bind, wp_pure, sendWrite]
    refine wp_mono (wp_sendOne me _ h) (fun _ s1 h1 => ?_) fun _ _ he => he
    exact ⟨_, h1, .send (.write fd bufId len _)⟩
  | pending =>
    simp only [pollValue, WriteFuture.poll, wp_bind, wp_currentResult, wp_pure]
    exact .resolve me (.refl s) .written

/-- `checkout_read` of the buffer that a completion names. -/
theorem wp_checkoutRead {bufId : UInt16} (fdIdx bytes : UInt32)
    {Q : RwBuffer → State σ → Prop}
    (hQ : ∀ b : RwBuffer, b.bufIdx.toUInt16 = bufId → b.bytes = bytes →
    b.committed = false → Q b s) : wp
    (liftExcept (s.buffer.checkoutRead bufId.toUInt32 fdIdx bytes) : Rt σ RwBuffer) Q
      (Soft s.core) s := by
  unfold BufPool.checkoutRead
  split
  · exact hQ _ (by simp) rfl rfl
  · exact soft_same (.refl s) rfl

theorem wp_poll_read (f : ReadFuture) (h : Running s me.task l) :
    wp (pollValue me (.read f)) (fun r s' => PolledTo me s (.read f) r s') (Soft s.core) s := by
  cases f with
  | init fd =>
    simp only [pollValue, ReadFuture.poll, wp_bind, wp_pure, sendRead]
    refine wp_mono (wp_sendOne me _ h) (fun _ s1 h1 => ?_) fun _ _ he => he
    exact ⟨_, h1, .send (.read fd)⟩
  | pending fd =>
    simp only [pollValue, ReadFuture.poll, wp_bind, wp_currentResult, wp_currentCqeFlags, wp_ite]
    refine ⟨fun hres => ?_, fun hres => ?_⟩
    · cases hb : bufferSelect s.core.current.flags with
      | none => exact .resolve me (.refl s) (.readFailed fd hres)
      | some bufId =>
        simp only [wp_bind]
        refine wp_mono ((silent_releaseReadBuf _).soft s) (fun _ s1 h1 => ?_) fun _ _ he => he
        exact .resolve me h1 (.readFailed fd hres)
    · cases hb : bufferSelect s.core.current.flags with
      | none => exact soft_same (.refl s) rfl
      | some bufId =>
        simp only [wp_bind, wp_get]
        refine wp_checkoutRead fd _ fun b hidx hn hc => ?_
        exact .resolve me (.refl s) (.read fd b hres (hidx ▸ hb) hn hc)

theorem wp_poll_commitFuture (f : CommitFuture) (h : Running s me.task l) :
    wp (pollValue me (.commit f)) (fun r s' => PolledTo me s (.commit f) r s') (Soft s.core) s := by
  cases f with
  | init ptr bufIdx fdIdx len =>
    simp only [pollValue, CommitFuture.poll, wp_bind, wp_pure]
    refine wp_mono (wp_sendCommitWrite me _ _ _ _ h) (fun _ s1 h1 => ?_) fun _ _ he => he
    exact ⟨_, h1, .commit (.init ptr bufIdx fdIdx len)⟩
  | pending bufIdx =>
    simp only [pollValue, CommitFuture.poll, wp_bind]
    refine wp_mono ((silent_releaseReadBuf _).soft s) (fun _ s1 h1 => ?_) fun _ _ he => he
    simp only [wp_currentResult, wp_pure]
    rw [h1.core]
    exact .resolve me h1 (.committed bufIdx)

theorem wp_poll_commitFn (b : RwBuffer) (len : UInt32) (h : Running s me.task l) :
    wp (pollValue me (.commitFn b len)) (fun r s' => PolledTo me s (.commitFn b len) r s')
      (Soft s.core) s := by
  simp only [pollValue, CommitFuture.poll, wp_bind, wp_pure]
  refine wp_mono (wp_sendCommitWrite me _ _ _ _ h) (fun _ s1 h1 => ?_) fun _ _ he => he
  exact ⟨_, h1, .commit (.first b len)⟩

theorem wp_poll_socket (f : SocketFuture) (h : Running s me.task l) :
    wp (pollValue me (.socket f)) (fun r s' => PolledTo me s (.socket f) r s') (Soft s.core) s := by
  cases f with
  | createSocket addr =>
    simp only [pollValue, SocketFuture.poll, wp_bind, wp_pure, sendSocket]
    refine wp_mono (wp_sendOne me _ h) (fun _ s1 h1 => ?_) fun _ _ he => he
    exact ⟨_, h1, .send (.socket addr)⟩
  | connecting fd addr =>
    simp only [pollValue, SocketFuture.poll, wp_bind, wp_ite]
    refine ⟨fun hfd => ?_, fun hfd => .resolve me (.refl s) (.connected fd addr hfd)⟩
    subst hfd
    simp only [wp_currentResult, wp_pure, wp_withLocal_sendConnect, h.rep.stack]
    refine wp_mono (wp_sendOne me _ h) (fun _ s1 h1 => ?_) fun _ _ he => he
    exact ⟨_, h1, .send (.connect addr)⟩
  | pending => exact soft_same (.refl s) rfl

/-! ## Streams -/

theorem wp_poll_acceptStream (st : AcceptStream) (h : Running s me.task l) :
    wp (pollValue me (.acceptStream st)) (fun r s' => PolledTo me s (.acceptStream st) r s')
      (Soft s.core) s := by
  obtain ⟨fd, state⟩ := st
  cases state with
  | init =>
    simp only [pollValue, AcceptStream.pollNext, wp_bind, wp_pure, sendAcceptMultishot]
    refine wp_mono (wp_sendMultishot me _ h) (fun _ s1 h1 => ?_) fun _ _ he => he
    exact ⟨_, h1, .opens (.accept fd)⟩
  | running =>
    simp only [pollValue, AcceptStream.pollNext, wp_bind, wp_currentResult, wp_ite, wp_pure,
      wp_currentCqeFlags]
    refine ⟨fun hres => .resolve me (.refl s) (.acceptEnd fd hres), fun hres => ?_⟩
    have := PolledTo.resolve me (.refl s) (.accepting fd hres)
    unfold StreamState.next at this
    split at this <;> rename_i hm <;> simp only [hm] <;> exact this
  | done =>
    simp only [pollValue, AcceptStream.pollNext, wp_bind, wp_pure]
    exact .resolve me (.refl s) (.acceptDone fd)

theorem wp_poll_readStream (st : ReadStream) (h : Running s me.task l) :
    wp (pollValue me (.readStream st)) (fun r s' => PolledTo me s (.readStream st) r s')
      (Soft s.core) s := by
  obtain ⟨fd, state⟩ := st
  cases state with
  | init =>
    simp only [pollValue, ReadStream.pollNext, wp_bind, wp_pure, sendRecvMultishot]
    refine wp_mono (wp_sendMultishot me _ h) (fun _ s1 h1 => ?_) fun _ _ he => he
    exact ⟨_, h1, .opens (.read fd)⟩
  | running =>
    simp only [pollValue, ReadStream.pollNext, wp_bind, wp_currentResult, wp_ite, wp_pure,
      wp_currentCqeFlags]
    refine ⟨fun hres => .resolve me (.refl s) (.readEnd fd hres), fun hres => ?_⟩
    cases hb : bufferSelect s.core.current.flags with
    | none => exact soft_same (.refl s) rfl
    | some bufId =>
      simp only [wp_bind, wp_get]
      refine wp_checkoutRead fd _ fun b hidx hn hc => ?_
      have := PolledTo.resolve me (.refl s) (.reading fd b hres (hidx ▸ hb) hn hc)
      unfold StreamState.next at this
      split at this <;> rename_i hm <;> simp only [hm] <;> exact this
  | done =>
    simp only [pollValue, ReadStream.pollNext, wp_bind, wp_pure]
    exact .resolve me (.refl s) (.readDone fd)

/-! ## The fan-out -/

theorem wp_advanceSyscallNb (p : TaskPtr) (h : Running s p l) (E : Fault → State σ → Prop) :
    wp (advanceSyscallNb s.currentTask.tag)
      (fun _ s' => Becomes s (s.core.mapNb p taskAugmente) s') E s := by
  simp only [advanceSyscallNb, wp_bind]
  refine wp_tasksIndex h.slot h.rep ?_
  exact wp_mono (wp_mapNb taskAugmente h.live _) (fun _ _ h1 => h1.1) fun _ _ he => he

theorem wp_poll_writeMultiple (f : WriteMultipleFuture) (h : Running s me.task l) :
    wp (pollValue me (.writeMultiple f)) (fun r s' => PolledTo me s (.writeMultiple f) r s')
      (Soft s.core) s := by
  cases f with
  | init fds b len =>
    simp only [pollValue, WriteMultipleFuture.poll, wp_bind, wp_pure]
    refine wp_mono (wp_wBufferClone b) (fun b' s1 hpost => ?_) fun _ _ he => he
    obtain ⟨hb, h1⟩ := hpost
    subst hb
    have hrun1 : Running s1 me.task l := h.of_becomes h1.becomes (.refl _ _)
    refine wp_mono (wp_sendMultipleWrite me fds b' len hrun1) (fun _ s2 hpost => ?_)
      fun _ _ he => h1.core ▸ he
    obtain ⟨hne, h2⟩ := hpost
    rw [h1.core] at h2
    exact ⟨_, h1.becomes.trans h2, .fanOut fds b' len hne⟩
  | pending n fds faileds len b =>
    simp only [pollValue, WriteMultipleFuture.poll, wp_bind, wp_ite, wp_get]
    refine ⟨fun _ => soft_same (.refl s) rfl, fun hn => ?_⟩
    cases hfd : fds[s.currentTask.responseGen.toNat]? with
    | none => exact soft_same (.refl s) rfl
    | some fd =>
      simp only [wp_ite]
      refine ⟨fun _ => soft_same (.refl s) rfl, fun hused => ⟨fun hlast => ?_, fun hmore => ?_⟩⟩
      · simp only [wp_bind, wp_modify, wp_pure]
        refine wp_mono (wp_advanceSyscallNb me.task h _) (fun _ s1 h1 => ?_) fun _ _ he => he
        have heff := Effect.advance s.core me.task
        have h2 : Becomes s (s.core.advance me.task)
            { s1 with currentTask := s1.currentTask.setToNextTask } :=
          ⟨congrArg (fun c : Core => { c with current := c.current.setToNextTask }) h1.core, h1.fut,
            fun hr => ⟨(h1.rep hr).sized, (h1.rep hr).pos, (h1.rep hr).entries,
              (h1.rep hr).wakeList, (h1.rep hr).stack⟩⟩
        refine wp_mono ((silent_dropValue _).soft _) (fun _ s3 h3 => ?_)
          fun _ _ he => he.trans (h2.core ▸ heff.trails)
        have h3 := h3.becomes
        rw [h2.core] at h3
        exact ⟨_, h2.trans h3, .fanLast hn hlast hfd hused⟩
      · exact ⟨_, (Same.refl s).becomes, .fanOne hn hmore hfd hused⟩
  | poisoned => exact soft_same (.refl s) rfl

/-- **Polling a library value refines `Polled`.** -/
theorem wp_pollValue (me : Caller) (val : Value) (h : Running s me.task l) :
    wp (pollValue me val) (fun r s' => PolledTo me s val r s') (Soft s.core) s := by
  cases val with
  | accept f => exact wp_poll_accept f h
  | read f => exact wp_poll_read f h
  | write f => exact wp_poll_write f h
  | commitFn b len => exact wp_poll_commitFn b len h
  | commit f => exact wp_poll_commitFuture f h
  | socket f => exact wp_poll_socket f h
  | writeMultiple f => exact wp_poll_writeMultiple f h
  | acceptStream st => exact wp_poll_acceptStream st h
  | readStream st => exact wp_poll_readStream st h
  | rwBuffer b => exact soft_same (.refl s) rfl
  | wBuffer b => exact soft_same (.refl s) rfl
  | returned => exact soft_same (.refl s) rfl

end Onlyio
