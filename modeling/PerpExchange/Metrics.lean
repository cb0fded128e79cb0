import PerpExchange.Json.Codec

/-!
Named counters. A counter that was never raised has no entry.
-/

namespace PerpExchange

/-- What is counted. -/
inductive Counter where
  | deleteOrderNotFound
  | fillOrderNotFound
  | fillOutOfBounds
  | arithmeticOverflow
  | eventIngested (name : String)
  | decodeFailure
  | amountOutOfRange
  | unknownContractLog
  | feedEventDropped
  | matchSubmitted
  | matchRefused
  | liquidationSubmitted
  | liquidationRefused
  | cancelSubmitted
  | insufficientMargin
  | pipelineRun
  deriving DecidableEq

def Counter.name : Counter → String
  | .deleteOrderNotFound => "store.delete_order_not_found"
  | .fillOrderNotFound => "store.update_fill_order_not_found"
  | .fillOutOfBounds => "store.fill_out_of_bounds"
  | .arithmeticOverflow => "store.arithmetic_overflows"
  | .eventIngested event => "ingest.events\x7bevent=" ++ event ++ "\x7d"
  | .decodeFailure => "ingest.decode_failures"
  | .amountOutOfRange => "ingest.amount_out_of_range"
  | .unknownContractLog => "ingest.unknown_contract_logs"
  | .feedEventDropped => "feed.events_dropped"
  | .matchSubmitted => "pipeline.matches_submitted"
  | .matchRefused => "pipeline.match_submit_failures"
  | .liquidationSubmitted => "pipeline.liquidations_submitted"
  | .liquidationRefused => "pipeline.liquidation_submit_failures"
  | .cancelSubmitted => "pipeline.cancels_submitted"
  | .insufficientMargin => "pipeline.insufficient_margin"
  | .pipelineRun => "pipeline.runs"

/-- The counters by name. -/
structure Metrics where
  counts : Map String Nat

namespace Metrics

instance : Inhabited Metrics := ⟨⟨∅⟩⟩

def get (m : Metrics) (c : Counter) : Nat := m.counts.getD c.name 0

/-- Raises a counter by a number. -/
def add (m : Metrics) (c : Counter) (n : Nat) : Metrics :=
  if n = 0 then m else ⟨m.counts.insert c.name (m.get c + n)⟩

def count (m : Metrics) (c : Counter) : Metrics := m.add c 1

def countAll (m : Metrics) (cs : List Counter) : Metrics := cs.foldl count m

def toJson (m : Metrics) : Json :=
  Json.ofFields (m.counts.toList.map fun (name, n) => (name, Json.ofNat n))

end Metrics

end PerpExchange
