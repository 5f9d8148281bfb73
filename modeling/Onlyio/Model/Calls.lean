import Onlyio.Model.Runtime

/-!
# The library's futures (`calls/`)

`poll` of each future and `poll_next` of each stream, as the source writes them: a first poll
submits, a later one reads its result from `CURRENT_TASK`, whatever completion put it there.

`pollValue` is the poll of a value an `async` block owns. A future is `returned` after `Ready`, and
polling it again is the panic of an `async fn` resumed after completion.
-/

namespace Onlyio

variable {σ : Type}

/-- `current_result`. -/
def currentResult : Rt σ Int32 := do
  return (← get).currentTask.result

/-- `current_cqe_flags`. -/
def currentCqeFlags : Rt σ UInt32 := do
  return (← get).currentTask.flags

/-- `AcceptFuture::poll`. -/
def AcceptFuture.poll (me : Caller) :
    AcceptFuture → Rt σ (Poll (Except Int32 UInt32) × AcceptFuture)
  | .pending fd => do
    sendAccept me fd
    return (.pending, .submited)
  | .submited => do
    let res ← currentResult
    if 0 ≤ res then return (.ready (.ok res.toUInt32), .submited)
    else return (.ready (.error res), .submited)

/-- `ReadFuture::poll`. -/
def ReadFuture.poll (me : Caller) : ReadFuture → Rt σ (Poll (Except Int32 RwBuffer) × ReadFuture)
  | .init fd => do
    sendRead me fd
    return (.pending, .pending fd)
  | .pending fd => do
    let bytes ← currentResult
    let flags ← currentCqeFlags
    if bytes ≤ 0 then
      match bufferSelect flags with
      | some bufId => releaseReadBuf bufId.toUInt32
      | none => pure ()
      return (.ready (.error bytes), .pending fd)
    else
      match bufferSelect flags with
      | none => throw (.panic .readNoBufId)
      | some bufId =>
        let rwbuf ← liftExcept
          ((← get).buffer.checkoutRead bufId.toUInt32 fd bytes.toUInt32)
        return (.ready (.ok rwbuf), .pending fd)

/-- `WriteFuture::poll`. -/
def WriteFuture.poll (me : Caller) : WriteFuture → Rt σ (Poll Int32 × WriteFuture)
  | .init fd bufId len => do
    sendWrite me fd bufId len
    return (.pending, .pending)
  | .pending => return (.ready (← currentResult), .pending)

/-- `CommitFuture::poll`. -/
def CommitFuture.poll (me : Caller) : CommitFuture → Rt σ (Poll Int32 × CommitFuture)
  | .init ptr bufIdx fdIdx len => do
    sendCommitWrite me ptr fdIdx len bufIdx.toUInt16
    return (.pending, .pending bufIdx)
  | .pending bufIdx => do
    releaseReadBuf bufIdx
    return (.ready (← currentResult), .pending bufIdx)

/-- `f` runs with the address of a local that holds `addr`; the local is gone when the call returns,
or unwinds. -/
def withLocal (addr : SockAddr) (f : Nat → Rt σ Unit) : Rt σ Unit := fun s =>
  match f s.stack.length { s with stack := s.stack ++ [addr] } with
  | .ok _ s' => .ok () { s' with stack := s.stack }
  | .error e s' => .error e { s' with stack := s.stack }

/-- `mem::size_of::<libc::sockaddr_in>()`. -/
def sockAddrSize : UInt32 := 16

/-- `SocketFuture::poll`: the `loop` always returns in its first turn. The pattern copies `addr` to
a local, and its address is what `submit_connect` gets. -/
def SocketFuture.poll (me : Caller) : SocketFuture → Rt σ (Poll UInt32 × SocketFuture)
  | .createSocket addr => do
    sendSocket me
    return (.pending, .connecting 0 addr)
  | .connecting fd addr =>
    if fd = 0 then do
      let slot := (← currentResult).toUInt32
      withLocal addr fun sockaddr => sendConnect me slot sockaddr sockAddrSize
      return (.pending, .connecting slot addr)
    else return (.ready fd, .pending)
  | .pending => throw (.panic .unreachable)

/-- The two independent `if`s of `WriteMultipleFuture::poll` on one result. -/
def pushResult (faileds : List WriteResult) (fd : UInt32) (result : Int32) (len : UInt32) :
    List WriteResult :=
  let faileds := if result < 0 then faileds ++ [.failed fd] else faileds
  if result.toUInt32 ≠ len then faileds ++ [.short fd result.toUInt32] else faileds

/-- `WriteMultipleFuture::poll`. -/
def WriteMultipleFuture.poll (me : Caller) :
    WriteMultipleFuture → Rt σ (Poll (List WriteResult) × WriteMultipleFuture)
  | .init fds buffer len => do
    let clone ← wBufferClone buffer
    sendMultipleWrite me fds clone len
    return (.pending, .pending (UInt16.ofNat fds.length) fds [] len buffer)
  | .pending inFligthCount fds faileds len buffer => do
    if inFligthCount = 0 then throw (.panic .inFlightUnderflow)
    else
      let inFligthCount := inFligthCount - 1
      let taskInfo := (← get).currentTask
      let genResult := taskInfo.responseGen.toNat
      match fds[genResult]? with
      | none => throw (.panic .fdsIndex)
      | some fd =>
        if fd = 0xFFFFFFFF then throw (.panic .duplicateGen)
        else
          let fds := fds.set genResult 0xFFFFFFFF
          let faileds := pushResult faileds fd taskInfo.result len
          if inFligthCount = 0 then
            advanceSyscallNb taskInfo.tag
            modify fun s => { s with currentTask := s.currentTask.setToNextTask }
            return (.ready faileds, .pending inFligthCount fds [] len buffer)
          else return (.pending, .pending inFligthCount fds faileds len buffer)
  | .poisoned => throw .unreachableUnchecked

/-- `AcceptStream::poll_next`. -/
def AcceptStream.pollNext (me : Caller) (st : AcceptStream) :
    Rt σ (Poll (Option UInt32) × AcceptStream) :=
  match st.state with
  | .init => do
    sendAcceptMultishot me st.listenFd
    return (.pending, { st with state := .running })
  | .running => do
    let result ← currentResult
    if result < 0 then return (.ready none, { st with state := .done })
    else
      let flags ← currentCqeFlags
      let st := if more flags then st else { st with state := .done }
      return (.ready (some result.toUInt32), st)
  | .done => return (.ready none, st)

/-- `ReadStream::poll_next`. -/
def ReadStream.pollNext (me : Caller) (st : ReadStream) :
    Rt σ (Poll (Option RwBuffer) × ReadStream) :=
  match st.state with
  | .init => do
    sendRecvMultishot me st.fd
    return (.pending, { st with state := .running })
  | .running => do
    let result ← currentResult
    let flags ← currentCqeFlags
    if result < 0 then return (.ready none, { st with state := .done })
    else
      match bufferSelect flags with
      | none => throw (.panic .recvNoBufId)
      | some bufId =>
        let buf ← liftExcept
          ((← get).buffer.checkoutRead bufId.toUInt32 st.fd result.toUInt32)
        let st := if more flags then st else { st with state := .done }
        return (.ready (some buf), st)
  | .done => return (.ready none, st)

/-! ## Polling a value -/

/-- What a poll hands back: a plain response, or a `RwBuffer` the block will own. -/
inductive Out where
  | pending
  | ready (r : Resp)
  | buffer (b : RwBuffer)
  deriving Repr, DecidableEq

/-- Poll the value in a local: what it hands back, and the value left there. -/
def pollValue (me : Caller) : Value → Rt σ (Out × Value)
  | .accept f => do
    match ← f.poll me with
    | (.pending, f) => return (.pending, .accept f)
    | (.ready (.ok fd), _) => return (.ready (.accepted fd), .returned)
    | (.ready (.error err), _) => return (.ready (.acceptFailed err), .returned)
  | .read f => do
    match ← f.poll me with
    | (.pending, f) => return (.pending, .read f)
    | (.ready (.ok buf), _) => return (.buffer buf, .returned)
    | (.ready (.error err), _) => return (.ready (.readFailed err), .returned)
  | .write f => do
    match ← f.poll me with
    | (.pending, f) => return (.pending, .write f)
    | (.ready r, _) => return (.ready (.written r), .returned)
  | .commitFn buf len => do
    -- `self.committed = true`: from here on, dropping the block drops no buffer
    match ← (CommitFuture.init buf.ptr buf.bufIdx buf.fdIdx len).poll me with
    | (.pending, f) => return (.pending, .commit f)
    | (.ready r, _) => return (.ready (.written r), .returned)
  | .commit f => do
    match ← f.poll me with
    | (.pending, f) => return (.pending, .commit f)
    | (.ready r, _) => return (.ready (.written r), .returned)
  | .socket f => do
    match ← f.poll me with
    | (.pending, f) => return (.pending, .socket f)
    | (.ready fd, _) => return (.ready (.connected fd), .returned)
  | .writeMultiple f => do
    match ← f.poll me with
    | (.pending, f) => return (.pending, .writeMultiple f)
    | (.ready faileds, f) =>
      -- the future is dropped where it was awaited, and its `_buffer` with it
      dropValue (.writeMultiple f)
      return (.ready (.wroteMultiple faileds), .returned)
  | .acceptStream st => do
    match ← st.pollNext me with
    | (.pending, st) => return (.pending, .acceptStream st)
    | (.ready (some fd), st) => return (.ready (.item fd), .acceptStream st)
    | (.ready none, st) => return (.ready .none, .acceptStream st)
  | .readStream st => do
    match ← st.pollNext me with
    | (.pending, st) => return (.pending, .readStream st)
    | (.ready (some buf), st) => return (.buffer buf, .readStream st)
    | (.ready none, st) => return (.ready .none, .readStream st)
  | .rwBuffer _ | .wBuffer _ => throw .illTyped
  | .returned => throw (.panic .resumed)

end Onlyio
