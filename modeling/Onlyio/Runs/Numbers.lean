import Onlyio.Machine.Local
import Onlyio.Model.Await

/-!
# The numbers of a task and of its SQEs

A completion whose number is newer than its task's aborts the runtime. The number is kept twice, in
the task and in `CURRENT_TASK`, from which SQEs are stamped; an awaiting block keeps both in step,
and leaves no outstanding SQE ahead of the task, except in three places of the source:

* `send_commit_write` sets `MULTIPLE_MASK` on `CURRENT_TASK` only;
* `Tag::augmente_syscall_nb` wraps at `0x8000` and `Task::augmente_syscall_nb` does not;
* a `Normal` completion takes the number from `0x7FFF` to `0x8000`, whose rank is `0`.

Where none of them strikes (`numbersAgree`), **`numbers_run`**: the panic of `handle_cqe_entry` is
unreachable. `commit_number_ahead` is the test `test_close`: a task without a stream commits a
buffer.
-/

namespace Onlyio

open Lib

variable {τ : Type}

/-- The two numbers of a task stay in step, and no rank wraps below an outstanding SQE: a commit is
started with `MULTIPLE_MASK` set, a fan-out does not end at rank `0x7FFF`, and a `Normal` completion
with the number `0x7FFF` leaves no SQE of the task outstanding but with `0x8000`. -/
def numbersAgree : Event → Bool
  | .call _ (.commitFn _ _) info _ _ => isMultiple info.tag.syscallNb
  | .call _ (.commit (.init _ _ _ _)) info _ _ => isMultiple info.tag.syscallNb
  | .call _ (.writeMultiple (.pending _ _ _ _ _)) info _ (some _) =>
    rank info.tag.syscallNb != 0x7FFF
  | .cqe entry .normal others => entry.sqe.nb != 0x7FFF || others.all fun nb => nb == 0x8000
  | _ => true

/-- The numbers of a task that awaits: no outstanding SQE is ahead of the task, and while the block
runs, `CURRENT_TASK` has the task's number and no outstanding SQE carries it without the mask. -/
structure Numbered (V : View (Await.Point τ)) : Prop where
  outs : ∀ q ∈ V.outs, q.nb = V.nb ∨ rank q.nb < rank V.nb
  shots : ∀ q ∈ V.outs, q.op.isMultishot = true → isMultiple q.nb = true
  cur : ∀ cur, V.phase = .on cur → cur.tag.syscallNb = V.nb
  free : ∀ cur x, V.phase = .on cur → V.block.code = some x → x.suspended = false →
    isMultiple V.nb = false → ∀ q ∈ V.outs, q.nb ≠ V.nb

namespace Numbered

variable {V V' : View (Await.Point τ)} {A : τ → Await.Instr τ} {p : TaskPtr}

theorem le (h : Numbered V) {q : Sqe} (hq : q ∈ V.outs) : rank q.nb ≤ rank V.nb := by
  rcases h.outs q hq with heq | hlt
  · exact heq ▸ UInt16.le_refl _
  · exact UInt16.le_of_lt hlt

/-- No outstanding SQE is ahead. -/
theorem not_error (h : Numbered V) {q : Sqe} (hq : q ∈ V.outs) :
    evaluateSyscallNb V.nb q.nb ≠ .error := by
  rw [ne_eq, evaluate_error_iff]
  rintro ⟨hne, hle⟩
  rcases h.outs q hq with heq | hlt
  · exact hne heq
  · exact UInt16.not_lt.mpr hle hlt

/-- No poll is in progress, or its block has suspended: the SQEs alone matter. -/
theorem of_idle (h : Numbered V) (V' : View (Await.Point τ)) (hnb : V'.nb = V.nb)
    (hsub : ∀ q ∈ V'.outs, q ∈ V.outs) (hoff : ∀ cur, V'.phase ≠ .on cur) : Numbered V' :=
  ⟨fun q hq => hnb ▸ h.outs q (hsub q hq), fun q hq => h.shots q (hsub q hq),
    fun cur hon => absurd hon (hoff cur), fun cur _ hon => absurd hon (hoff cur)⟩

theorem settle (h : Numbered V) : Numbered V.settle := by
  unfold View.settle
  split
  · exact ⟨h.outs, h.shots, h.cur, h.free⟩
  · exact h

/-- An instruction of a block that runs and is not about to suspend. -/
theorem of_block (h : Numbered V) {cur : TaskInfo} {x : Await.Point τ} {L : List (Option Value)}
    (hon : V.phase = .on cur) (hb : V.block = ⟨some x, L⟩) (hx : x.suspended = false)
    (b : AsyncBlock (Await.Point τ)) : Numbered { V with block := b } :=
  ⟨h.outs, h.shots, h.cur, fun _ _ _ _ _ hm => h.free cur x hon (by rw [hb]) hx hm⟩

/-- A poll that submits with the number of the task: the block is about to suspend. -/
theorem of_submit (h : Numbered V) {cur : TaskInfo} {new : List Sqe} {nb : UInt16}
    {log : List Event} {b : AsyncBlock (Await.Point τ)} (hold : ∀ q ∈ V.outs, q.nb = nb ∨
    rank q.nb < rank nb) (hnew : ∀ q ∈ new, q.nb = nb)
    (hshots : ∀ q ∈ new, q.op.isMultishot = true → isMultiple q.nb = true)
    (hcur : cur.tag.syscallNb = nb) (hb : ∀ x, b.code = some x → x.suspended = true) :
    Numbered { V with
      nb, outs := V.outs + (new : Multiset Sqe), phase := .on cur, block := b, log } := by
  refine ⟨fun q hq => ?_, fun q hq => ?_, ?_, fun _ x _ hx hn => ?_⟩
  · rcases Multiset.mem_add.mp hq with hq | hq
    · exact hold q hq
    · exact .inl (hnew q hq)
  · rcases Multiset.mem_add.mp hq with hq | hq
    · exact h.shots q hq
    · exact hshots q hq
  · rintro _ ⟨⟩
    exact hcur
  · rw [hb x hx] at hn
    cases hn

/-- Polling an awaited value. -/
theorem call (h : Numbered V) {cur cur' : TaskInfo} {x : Await.Point τ} {L : List (Option Value)}
    {v : Var} {k : Resp → τ} {val val' : Value} {out : Out} {nb' : UInt16} {new : List Sqe}
    {evs log : List Event} {n m : Nat} (hon : V.phase = .on cur) (hb : V.block = ⟨some x, L⟩)
    (hx : x.suspended = false)
    (hc : Called ⟨p, v⟩ cur V.nb V.outs val out val' cur' nb' new evs)
    (hok : numbersAgree (.call v val cur n (out.resp m)) = true) :
    Numbered { V with
      nb := nb', outs := V.outs + (new : Multiset Sqe), phase := .on cur', log
      block := ⟨some (.after v k (out.resp m)), out.bind (L.set v (some val'))⟩ } := by
  have hcur := h.cur cur hon
  have hfree := h.free cur x hon (by rw [hb]) hx
  have hsusp : ∀ y, some (Await.Point.after v k none) = some y → y.suspended = true := by
    rintro y ⟨⟩
    rfl
  cases hc with
  | send hs hq =>
    refine h.of_submit h.outs (fun q' hq' => ?_) (fun q' hq' hm => ?_) hcur hsusp
    · rw [List.mem_singleton.mp hq', hq.nb, hcur]
    · rw [List.mem_singleton.mp hq', hq.op, hs.single] at hm
      cases hm
  | opens ho hq =>
    have hnb : cur.multiple.tag.syscallNb = setMultiple V.nb := by rw [← hcur]; rfl
    refine h.of_submit (fun q' hq' => ?_) (fun q' hq' => ?_) (fun q' hq' hm => ?_) hnb hsusp
    · cases hm : isMultiple V.nb with
      | true =>
        rw [setMultiple_of_isMultiple hm]
        exact h.outs q' hq'
      | false =>
        rw [rank_setMultiple]
        exact .inr ((h.outs q' hq').resolve_left (hfree hm q' hq'))
    · rw [List.mem_singleton.mp hq', hq.nb, hnb]
    · rw [List.mem_singleton.mp hq', hq.nb, hnb, isMultiple_setMultiple]
  | commit hc hq =>
    have hm : isMultiple V.nb = true := by
      rw [← hcur]
      cases hc <;> exact hok
    have hnb : cur.multiple.tag.syscallNb = V.nb := by
      rw [← hcur] at hm ⊢
      exact setMultiple_of_isMultiple hm
    refine h.of_submit h.outs (fun q' hq' => ?_) (fun q' hq' _ => ?_) hnb hsusp
    · rw [List.mem_singleton.mp hq', hq.nb, hnb]
    · rw [List.mem_singleton.mp hq', hq.nb, hnb, hm]
  | fanOut hne hnew hev =>
    refine h.of_submit h.outs (fun q' hq' => (hnew.nb q' hq').trans hcur) (fun q' hq' hm => ?_) hcur
      hsusp
    rw [hnew.single q' hq'] at hm
    cases hm
  | fanOne hn hn1 hfd hused => exact h.of_submit h.outs (by simp) (by simp) hcur hsusp
  | fanLast hn hn1 hfd hused =>
    have hrank : rank V.nb ≠ 0x7FFF := by
      rw [← hcur]
      simpa [numbersAgree, Out.resp] using hok
    obtain ⟨htag, hlt⟩ := augmente_of_rank hrank
    rw [Multiset.coe_nil, Multiset.add_zero]
    refine ⟨fun q hq => .inr (hlt _ (h.le hq)), h.shots, ?_, fun _ _ _ _ _ _ q hq heq => ?_⟩
    · rintro _ ⟨⟩
      show tagAugmente cur.tag.syscallNb = _
      rw [hcur, htag]
    · have := hlt _ (h.le hq)
      rw [heq] at this
      exact UInt16.lt_irrefl _ this
  | resolve hr =>
    rw [Multiset.coe_nil, Multiset.add_zero]
    refine ⟨h.outs, h.shots, ?_, fun _ _ _ _ _ hm => hfree hm⟩
    rintro _ ⟨⟩
    exact hcur

/-- A completion that the task takes. -/
theorem accept (h : Numbered V) {e : Cqe} {cls : SyscallNbCompResult} {others : List UInt16}
    {log : List Event} (harr : Arrives V e cls others) (hcls : cls = .normal ∨ cls = .multiple)
    (hok : numbersAgree (.cqe e cls others) = true) :
    Numbered { V with
      nb := if cls = .normal then taskAugmente V.nb else V.nb
      outs := V.answered e, phase := .on (e.context cls), log } := by
  have hnb := harr.nb_eq hcls
  have heval := harr.cls_eq hcls
  have hsub := fun (q : Sqe) (hq : q ∈ V.answered e) => View.mem_of_answered hq
  cases hm : isMultiple V.nb with
  | true =>
    rw [hm, if_pos rfl] at heval
    subst heval
    refine ⟨fun q hq => h.outs q (hsub q hq), fun q hq => h.shots q (hsub q hq), ?_, ?_⟩
    · rintro _ ⟨⟩
      exact hnb
    · intro _ _ _ _ _ hn
      rw [show isMultiple V.nb = false from hn] at hm
      cases hm
  | false =>
    rw [hm, if_neg Bool.false_ne_true] at heval
    subst heval
    obtain ⟨-, hwrap⟩ := taskAugmente_of_not_multiple hm
    have hcur : ∀ cur, Phase.on (e.context .normal) = .on cur →
        cur.tag.syscallNb = taskAugmente V.nb := by
      rintro _ ⟨⟩
      exact harr.context_nb hcls
    by_cases hr : rank V.nb = 0x7FFF
    · -- the number wraps to `0x8000`: every other outstanding SQE carries it already
      have hfinal : more e.flags = false := by
        by_contra hmore
        have hshot := h.shots e.sqe harr.mem (harr.shots (by simpa using hmore))
        rw [hnb, hm] at hshot
        cases hshot
      have hnb7 : e.sqe.nb = 0x7FFF := by rw [hnb, ← rank_of_not_multiple hm, hr]
      have hothers : ∀ q ∈ V.answered e, q.nb = 0x8000 := fun q hq => by
        rw [View.answered, hfinal, if_neg Bool.false_ne_true] at hq
        have hmem : q.nb ∈ others := by
          rw [← Multiset.mem_coe, harr.others]
          exact Multiset.mem_map_of_mem _ hq
        simp only [numbersAgree, hnb7, bne_self_eq_false, Bool.false_or, List.all_eq_true,
          beq_iff_eq] at hok
        exact hok _ hmem
      refine ⟨fun q hq => .inl ?_, fun q hq => h.shots q (hsub q hq), hcur, ?_⟩
      · rw [if_pos rfl, hwrap hr, hothers q hq]
      · intro _ _ _ _ _ hn
        rw [if_pos rfl, hwrap hr] at hn
        exact absurd (show isMultiple 0x8000 = false from hn) (by decide)
    · obtain ⟨-, hlt⟩ := augmente_of_rank hr
      refine ⟨fun q hq => .inr (hlt _ (h.le (hsub q hq))), fun q hq => h.shots q (hsub q hq), hcur,
        fun _ _ _ _ _ _ q hq heq => ?_⟩
      have := hlt _ (h.le (hsub q hq))
      rw [show q.nb = taskAugmente V.nb from heq] at this
      exact UInt16.lt_irrefl _ this

/-- **Every step of a task that awaits keeps its numbers.** -/
theorem step (hs : TaskStep (awaited A) p V V') (hok : ∀ e ∈ V'.log, numbersAgree e = true)
    (h : Numbered V) : Numbered V' := by
  cases hs with
  | locals hon hb hl =>
    obtain ⟨t, rfl⟩ := awaited_run rfl (fun v k hx => by rw [hx] at hl; cases hl)
      fun k hx => by rw [hx] at hl; cases hl
    exact h.of_block hon hb rfl _
  | spawn hon hb hx hm =>
    obtain ⟨t, rfl⟩ := awaited_run hx (fun _ _ => nofun) fun _ => nofun
    exact h.of_block hon hb rfl _
  | call hon hb hx hv hc =>
    obtain ⟨hsusp, k', rfl, -⟩ := awaited_poll hx
    exact h.call hon hb hsusp hc (hok _ (List.mem_append_right _ (List.mem_singleton_self _)))
  | suspend hon hb hx => exact h.of_idle _ rfl (fun _ hq => hq) fun _ => nofun
  | ret hon hb hx => exact h.of_idle _ rfl (fun _ hq => hq) fun _ => nofun
  | leave hover =>
    exact (h.of_idle { V with phase := .off } rfl (fun _ hq => hq) fun _ => nofun).settle
  | @skip e others harr =>
    refine (h.of_idle { V with
      outs := V.answered e, log := V.log ++ [.cqe e .expired others] } rfl
      (fun _ hq => View.mem_of_answered hq) fun cur hon => ?_).settle
    have hoff := harr.off
    rw [show V.phase = .on cur from hon] at hoff
    cases hoff
  | accept harr hcls => exact h.accept harr hcls (hok _ (by simp))

theorem born (i : SlabIdx) (x : Await.Point τ) (L : List (Option Value)) :
    Numbered (.born i x L) := by
  refine ⟨by simp [View.born], by simp [View.born], ?_, by simp [View.born]⟩
  rintro _ ⟨⟩
  rfl

theorem isLocal (A : τ → Await.Instr τ) : Local (awaited A) numbersAgree fun _ => Numbered where
  main _ i _ _ := born i _ []
  spawn _ i _ _ _ _ _ _ := born i _ _
  step hs hok h := step hs hok h

end Numbered

/-- **The panic of the dispatch is unreachable** in every run of awaiting tasks where the three
slips do not strike: no outstanding SQE is newer than the task that its index names, so no
completion is classified as an error. -/
theorem numbers_run {A : τ → Await.Instr τ} {s : State (Await.Point τ)}
    (h : RunWith (awaited A) (fun _ s' => s'.records numbersAgree) s) :
    (∀ q ∈ s.outstanding, ∀ p raw, s.tasks.index q.payload.taskIdx = .ok p →
      s.heap[p]? = some raw → evaluateSyscallNb raw.syscallNb q.payload.syscallNb ≠ .error) ∧
    ∀ cmd e s', act (awaited A) cmd s = .error e s' → e ≠ .panic .newerSqe := by
  obtain ⟨hrep, hinv⟩ := h.inv
  have hviews := (Numbered.isLocal A).run h
  have hmain : ∀ q ∈ s.core.outstanding,
      evaluateSyscallNb (s.core.stored q.caller.task) q.payload.syscallNb ≠ .error := fun q hq =>
    (hviews.all _ (hinv.slab.lt_spawned (hinv.owner_slot hq).2)).not_error (mem_own.mpr ⟨hq, rfl⟩)
  refine ⟨fun q hq p raw hp hraw => ?_, fun _ _ _ => not_newer hrep hinv hmain⟩
  obtain ⟨hslot, -⟩ := hinv.owner_slot hq
  rw [Slab.index_of_get? hslot hrep.sized] at hp
  obtain rfl := Except.ok.inj hp
  have hq' := hmain q hq
  rwa [Core.stored, State.core_cell hraw] at hq'

/-- A block that takes one buffer from a `read_stream` and commits it. -/
def echoOnce : Nat → Await.Instr Nat
  | 0 => .stream (.readStream 5) fun _ => 1
  | 1 => .next 0 fun
    | .buffer _ _ => 2
    | _ => 3
  | 2 => .await (.commit 1 4) fun _ => 3
  | _ => .ret

theorem numbers_run_echo :
    ∃ s, freshScript (awaited echoOnce) (fun _ s' => s'.records numbersAgree)
        [.spawn 9 (.run 0), .submit, .consume, .complete 0 4 3, .handle 9] = some s ∧
      s.outstanding.length = 2 ∧
      ∀ q ∈ s.outstanding, ∀ p raw, s.tasks.index q.payload.taskIdx = .ok p →
        s.heap[p]? = some raw → evaluateSyscallNb raw.syscallNb q.payload.syscallNb ≠ .error := by
  have hrun : (freshScript (awaited echoOnce) (fun _ s' => s'.records numbersAgree)
      [.spawn 9 (.run 0), .submit, .consume, .complete 0 4 3, .handle 9]).any
      (fun s => s.outstanding.length == 2) = true := by decide +kernel
  obtain ⟨s, hs, hc⟩ := (Option.any_eq_true _ _).mp hrun
  exact ⟨s, hs, beq_iff_eq.mp hc, (numbers_run (.of_script (fun _ _ h => h) hs)).1⟩

/-! ## A commit without a stream -/

/-- The server of the test `test_close`: it accepts, and spawns a block that reads and commits. -/
def closeTest : Nat → Await.Instr Nat
  | 0 => .await (.accept 4) fun _ => 1
  | 1 => .spawn 2 [] 4
  | 2 => .await (.read 5) fun
    | .buffer _ _ => 3
    | _ => 4
  | 3 => .await (.commit 1 4) fun _ => 4
  | _ => .ret

/-- The connection is accepted, four bytes are read into buffer `0`, and the write completes. -/
def closeTestRun : List (Cmd (Await.Point Nat)) :=
  [.spawn 9 (.run 0), .submit, .consume, .complete 0 5 0, .handle 9, .submit, .consume,
    .complete 1 4 1, .handle 9, .submit, .consume, .complete 2 4 0]

/-- The command fails on a completion newer than its task. -/
def failsOnNewer (code : Code σ) (cmd : Cmd σ) (s : State σ) : Bool :=
  match act code cmd s with
  | .error (.panic .newerSqe) _ => true
  | _ => false

/-- The outstanding SQE is newer than its task. -/
def State.isNewer (s : State σ) (q : Sqe) : Bool :=
  match s.tasks.index q.payload.taskIdx with
  | .ok p => s.heap[p]?.any fun raw => evaluateSyscallNb raw.syscallNb q.payload.syscallNb == .error
  | .error _ => false

theorem commit_number_ahead :
    ∃ s s', Reachable (awaited closeTest) s ∧
      act (awaited closeTest) (.handle 9) s = .error (.panic .newerSqe) s' ∧
      ∃ q ∈ s.outstanding, ∃ p raw, s.tasks.index q.payload.taskIdx = .ok p ∧
        s.heap[p]? = some raw ∧
        evaluateSyscallNb raw.syscallNb q.payload.syscallNb = .error := by
  have hrun : (freshScript (awaited closeTest) (fun _ _ => true) closeTestRun).any (fun s =>
      failsOnNewer (awaited closeTest) (.handle 9) s && s.outstanding.any s.isNewer) = true := by
    decide +kernel
  obtain ⟨s, hs, hc⟩ := (Option.any_eq_true _ _).mp hrun
  rw [Bool.and_eq_true] at hc
  obtain ⟨hact, hany⟩ := hc
  unfold failsOnNewer at hact
  split at hact
  · rename_i s' heq
    obtain ⟨q, hq, hcls⟩ := List.any_eq_true.mp hany
    unfold State.isNewer at hcls
    split at hcls
    · rename_i p hp
      obtain ⟨raw, hraw, hcls⟩ := (Option.any_eq_true _ _).mp hcls
      exact ⟨s, s', .of_script (fun _ _ _ => trivial) hs, heq, q, hq, p, raw, hp, hraw,
        beq_iff_eq.mp hcls⟩
    · cases hcls
  · cases hact

end Onlyio
