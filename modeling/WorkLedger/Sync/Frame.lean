import WorkLedger.Block.Json
import WorkLedger.Json.Printer

/-!
# Frames

Peers exchange JSON frames of one shape, told apart by their `message`. A frame that carries blocks
or an error is a response, every other one is a request. A request asks for a summary of the chain
or for a range of its blocks; a response brings these or says what went wrong.
-/

namespace WorkLedger

/-- The blocks from one index to another, both included. -/
structure BlockRange where
  first : UInt64
  last : UInt64
  deriving DecidableEq, Repr

/-- What a peer asks for. -/
inductive Request where
  | summary
  /-- A range of blocks, or all of them. -/
  | chain (range : Option BlockRange)
  | unknown (kind : String)

/-- What a peer answers or announces. -/
inductive Response where
  /-- The first and the last block of a chain, and its weight. -/
  | summary (first tail : Block) (weight : UInt64)
  | chain (blocks : List Block)
  | error (message : Option String) (text : String)
  | unknown (kind : String)

/-- Why a frame is refused. -/
inductive FrameError where
  | malformed
  | invalidId1
  | invalidId2
  | malformedSummary
  deriving DecidableEq, Repr

/-- The text of a frame error. -/
def FrameError.message : FrameError → String
  | malformed => "malformed request"
  | invalidId1 => "invalid 'id1' value"
  | invalidId2 => "invalid 'id2' value"
  | malformedSummary => "summary must carry exactly two blocks and a cumulative difficulty"

/-- The shape of all frames. -/
structure Envelope where
  message : Option String
  blocks : Option (List Block)
  weight : Option UInt64
  error : Option String
  id1 : Option Json
  id2 : Option Json

namespace Envelope

/-- The name of frames that ask for a summary or bring one. -/
def summaryKind : String := "summary"

/-- The name of frames that ask for blocks or bring them. -/
def chainKind : String := "chain"

/-- The envelope without any content. -/
def blank : Envelope := ⟨none, none, none, none, none, none⟩

/-- An envelope as a JSON value; what it does not hold is left out. -/
def toJson (e : Envelope) : Json :=
  .present [("message", e.message.map .string),
    ("blocks", e.blocks.map fun bs => .array (bs.map Block.toJson)),
    ("cumdiff", e.weight.map fun w => .nat w.toNat), ("error", e.error.map .string),
    ("id1", e.id1), ("id2", e.id2)]

/-- An envelope out of a JSON value. -/
def decoder : Decoder Envelope :=
  (Record.ofConstructor Envelope.mk
    |>.optional "message" Decoder.text
    |>.optional "blocks" (Decoder.list Block.decoder)
    |>.optional "cumdiff" Decoder.word64
    |>.optional "error" Decoder.text
    |>.optional "id1" (Decoder.plain 126)
    |>.optional "id2" (Decoder.plain 126)).decoder

/-- Whether an envelope holds a response. -/
def isResponse (e : Envelope) : Bool := e.blocks.isSome || e.error.isSome

end Envelope

/-- The word of 64 bits that a JSON value is, if it is one. -/
def Json.word64? (j : Json) : Option UInt64 := (Decoder.word64 j).toOption

namespace Request

/-- The request in an envelope. -/
def ofEnvelope (e : Envelope) : Except FrameError Request :=
  match e.message with
  | none => .error .malformed
  | some kind =>
    if kind = Envelope.summaryKind then .ok .summary
    else if kind = Envelope.chainKind then
      match e.id1, e.id2 with
      | none, none => .ok (.chain none)
      | id1, id2 =>
        match id1.bind Json.word64? with
        | none => .error .invalidId1
        | some first =>
          match id2.bind Json.word64? with
          | none => .error .invalidId2
          | some last => .ok (.chain (some ⟨first, last⟩))
    else .ok (.unknown kind)

/-- The envelope of a request. -/
def toEnvelope : Request → Envelope
  | summary => { Envelope.blank with message := some Envelope.summaryKind }
  | chain range =>
    { Envelope.blank with
      message := some Envelope.chainKind
      id1 := range.map fun r => .nat r.first.toNat
      id2 := range.map fun r => .nat r.last.toNat }
  | unknown kind => { Envelope.blank with message := some kind }

/-- The text of a request. -/
def text (r : Request) : String := r.toEnvelope.toJson.compact

end Request

namespace Response

/-- The response in an envelope. -/
def ofEnvelope (e : Envelope) : Except FrameError Response :=
  match e.error with
  | some text => .ok (.error e.message text)
  | none =>
    match e.message with
    | none => .error .malformed
    | some kind =>
      if kind = Envelope.summaryKind then
        match e.blocks, e.weight with
        | some [first, tail], some weight => .ok (.summary first tail weight)
        | _, _ => .error .malformedSummary
      else if kind = Envelope.chainKind then .ok (.chain (e.blocks.getD []))
      else .ok (.unknown kind)

/-- The envelope of a response. -/
def toEnvelope : Response → Envelope
  | summary first tail weight =>
    { Envelope.blank with
      message := some Envelope.summaryKind
      blocks := some [first, tail]
      weight := some weight }
  | chain blocks =>
    { Envelope.blank with message := some Envelope.chainKind, blocks := some blocks }
  | error message text => { Envelope.blank with message := message, error := some text }
  | unknown kind => { Envelope.blank with message := some kind }

/-- The text of a response. -/
def text (r : Response) : String := r.toEnvelope.toJson.compact

end Response

/-- How a frame is dispatched. -/
inductive Frame where
  | request (r : Except FrameError Request)
  | response (r : Except FrameError Response)
  /-- The frame is no envelope. -/
  | unparseable

/-- Sorts a frame. -/
def Frame.classify (text : String) : Frame :=
  match Envelope.decoder.read text with
  | .error _ => .unparseable
  | .ok e => if e.isResponse then .response (Response.ofEnvelope e) else .request (Request.ofEnvelope e)

end WorkLedger
