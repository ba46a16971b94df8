import Fieldbus.Proofs.Link.Courses

/-!
# The frames that a link keeps

A link keeps the frames of the last exchange.  A call that comes to its exchange leaves its own
request and what came in response to it (`ChannelLink.Owns`).  A call that ends before, since it has
no request or does not get the link, leaves the frames of an earlier call (`ChannelLink.Traced`).
So the frames after a call need not be its own (`ChannelLink.frames_of_earlier`), and a response
that was cut off is filled up with zeros that never came.
-/

namespace Fieldbus

theorem LinkState.Asked.frames {s s' : LinkState} {now : Nanos} {refused : Prop}
    {result : Except Fault Unit} (h : s.Asked now refused result s') : s'.frames = s.frames := by
  cases h with
  | up | held | made | missed => rfl

namespace ChannelLink

variable {l : ChannelLink} {t : LinkTurn}

theorem after_append (l : ChannelLink) (earlier later : List LinkTurn) :
    l.after (earlier ++ later) = (l.after earlier).after later := List.foldl_append

theorem after_concat (l : ChannelLink) (earlier : List LinkTurn) (t : LinkTurn) :
    l.after (earlier ++ [t]) = ((l.after earlier).turn t).link := l.after_append ..

/-! ## One call -/

/-- A call has a request and gets the link. -/
def Exchanges (l : ChannelLink) (t : LinkTurn) : Prop :=
  (t.call.frame? l).isSome ∧ (l.connect t.conduct t.now).result = .ok ()

/-- The frames are the request of a call and what is kept of the response to it. -/
structure Owns (l : ChannelLink) (t : LinkTurn) (frames : Log.Frames) : Prop where
  request : t.call.frame? l = some frames.request
  response : l.Keeps t frames.response

/-- A call that comes to its exchange leaves its own frames, and any other one those that it
found. -/
theorem frames_turn (l : ChannelLink) (t : LinkTurn) :
    l.Exchanges t ∧ l.Owns t (l.turn t).link.state.frames ∨
      ¬ l.Exchanges t ∧ (l.turn t).link.state.frames = l.state.frames := by
  have course := l.course t
  generalize (l.turn t).result = result, (l.turn t).link.state = s at course ⊢
  cases course with
  | closed call => exact .inr ⟨fun h => by simp [Exchanges, LinkCall.frame?, call] at h, rfl⟩
  | unmade unneeded =>
    exact .inr ⟨fun h => by simp [Exchanges, LinkCall.frame?_of_unneeded unneeded] at h, rfl⟩
  | connected call =>
    exact .inr ⟨fun h => by simp [Exchanges, LinkCall.frame?, call] at h,
      (l.connect_asked ..).frames⟩
  | unreached sends failed =>
    refine .inr ⟨fun h => ?_, (l.connect_asked ..).frames⟩
    cases failed.symm.trans h.2
  | failed sends made keeps | refused sends made keeps | answered sends made keeps =>
    exact .inl ⟨⟨sends ▸ rfl, made⟩, sends, keeps⟩

/-! ## Runs -/

/-- No call comes to an exchange. -/
def Quiet (l : ChannelLink) : List LinkTurn → Prop
  | [] => True
  | t :: rest => ¬ l.Exchanges t ∧ (l.turn t).link.Quiet rest

theorem quiet_concat {turns : List LinkTurn} (quiet : l.Quiet turns)
    (last : ¬ (l.after turns).Exchanges t) : l.Quiet (turns ++ [t]) := by
  induction turns generalizing l with
  | nil => exact ⟨last, trivial⟩
  | cons first rest ih => exact ⟨quiet.1, ih quiet.2 last⟩

/-- Where the frames come from that a link has after some calls. -/
inductive Traced (l : ChannelLink) (turns : List LinkTurn) (frames : Log.Frames) : Prop where
  /-- They were there before. -/
  | before : l.Quiet turns → frames = l.state.frames → Traced l turns frames
  /-- They are those of the last call that came to its exchange. -/
  | last {earlier later : List LinkTurn} {t : LinkTurn} :
    turns = earlier ++ t :: later → (l.after earlier).Exchanges t →
    (l.after earlier).Owns t frames → ((l.after earlier).turn t).link.Quiet later →
    Traced l turns frames

/-- A call that does not come to an exchange changes nothing about the last one. -/
theorem Traced.concat {turns : List LinkTurn} {frames : Log.Frames}
    (h : l.Traced turns frames) (quiet : ¬ (l.after turns).Exchanges t) :
    l.Traced (turns ++ [t]) frames := by
  cases h with
  | before silent kept => exact .before (quiet_concat silent quiet) kept
  | @last earlier later x split exchanges owns silent =>
    rw [split, after_append] at quiet
    refine .last ?_ exchanges owns (quiet_concat silent quiet)
    rw [split, List.append_assoc, List.cons_append]

theorem frames_traced (l : ChannelLink) (turns : List LinkTurn) :
    l.Traced turns (l.after turns).state.frames := by
  induction turns using List.reverseRecOn with
  | nil => exact .before trivial rfl
  | append_singleton turns t ih =>
    rw [after_concat]
    rcases (l.after turns).frames_turn t with ⟨exchanges, owns⟩ | ⟨quiet, kept⟩
    · exact .last rfl exchanges owns trivial
    · rw [kept]
      exact ih.concat quiet

/-- The frames that a link has after a call are the call's own if it came to its exchange.  If it
did not, they are as they were before the call, which are those of an earlier one. -/
theorem frames_own_or_earlier (l : ChannelLink) (past : List LinkTurn) (t : LinkTurn) :
    let frames := (l.after (past ++ [t])).state.frames
    (l.after past).Exchanges t ∧ (l.after past).Owns t frames ∨
      ¬ (l.after past).Exchanges t ∧ frames = (l.after past).state.frames ∧
        l.Traced past frames := by
  rw [after_concat]
  refine ((l.after past).frames_turn t).imp_right fun ⟨quiet, kept⟩ => ⟨quiet, kept, ?_⟩
  rw [kept]
  exact l.frames_traced past

/-! ## Frames of other calls -/

/-- A serial line, closed. -/
def unopened : ChannelLink :=
  .rtu { settings := ⟨"/dev/ttyUSB0", 9600, 8, 1, .none⟩, timeout := millis 200
         state := .down (seconds 1) (seconds 60) }

/-- A read of one register, which ends with the line closed. -/
def hungUp : LinkTurn where
  call := .read {}
  conduct := { wire := [(millis 10, .closed)] }
  now := 0

/-- A read of another register, for which the line cannot be opened. -/
def unopenable : LinkTurn where
  call := .read { start := 1 }
  conduct := { dial := { refusal := some "no such device" } }
  now := seconds 1

/-- A read of one register, of which four bytes come. -/
def cutOff : LinkTurn where
  call := .read {}
  conduct := { wire := [(millis 10, .bytes [1, 3, 2, 0])] }
  now := 0

/-- A read that does not get the line leaves the request of the read before it.  A response that is
cut off is kept with zeros that never came. -/
theorem frames_of_earlier :
    unopened.state.frames = {} ∧
      (let frames := (unopened.after [hungUp, unopenable]).state.frames
      frames.request = [1, 3, 0, 0, 0, 1, 132, 10] ∧
        unopenable.call.frame? (unopened.after [hungUp]) = some [1, 3, 0, 1, 0, 1, 213, 202]) ∧
      let frames := (unopened.after [cutOff]).state.frames
      frames.response = [1, 3, 2, 0, 0, 0, 0] ∧ ¬ frames.response <+: cutOff.conduct.wire.bytes := by
  decide +kernel

end ChannelLink

end Fieldbus
