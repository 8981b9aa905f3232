/-! # The TCP connection state diagram

The states of a connection and the edges between them, each with the event that labels it,
as RFC 793 draws them. The diagram has no arrows for resets; as the text has it, a reset
aborts the connection in every state.
-/

namespace Rfc793

/-- The states of a connection. -/
inductive State where
  | closed | listen | synSent | synReceived | established | finWait1 | finWait2 | closeWait
  | closing | lastAck | timeWait
deriving DecidableEq, Repr

/-- The labels of the edges. -/
inductive Event where
  /-- The calls of the user. -/
  | passiveOpen | activeOpen | send | close
  /-- The segments that are received. -/
  | rcvSyn | rcvSynAck | rcvAckOfSyn | rcvFin | rcvAckOfFin | rcvRst
  /-- Twice the maximum segment lifetime has passed. -/
  | timeout
deriving DecidableEq, Repr

/-- The edges. -/
inductive Edge : State → Event → State → Prop
  | passiveOpen : Edge .closed .passiveOpen .listen
  | activeOpen : Edge .closed .activeOpen .synSent
  | listenSyn : Edge .listen .rcvSyn .synReceived
  | listenSend : Edge .listen .send .synSent
  | listenClose : Edge .listen .close .closed
  | bothOpen : Edge .synSent .rcvSyn .synReceived
  | synAck : Edge .synSent .rcvSynAck .established
  | synSentClose : Edge .synSent .close .closed
  | synAcked : Edge .synReceived .rcvAckOfSyn .established
  | synReceivedClose : Edge .synReceived .close .finWait1
  | activeClose : Edge .established .close .finWait1
  | peerClose : Edge .established .rcvFin .closeWait
  | finAcked : Edge .finWait1 .rcvAckOfFin .finWait2
  | bothClose : Edge .finWait1 .rcvFin .closing
  | lastFin : Edge .finWait2 .rcvFin .timeWait
  | bothAcked : Edge .closing .rcvAckOfFin .timeWait
  | passiveClose : Edge .closeWait .close .lastAck
  | lastAck : Edge .lastAck .rcvAckOfFin .closed
  | timedOut : Edge .timeWait .timeout .closed
  | reset (s : State) : Edge s .rcvRst .closed

end Rfc793
