import Retention.Proofs.SweepLimits

namespace Retention

section Numbers

variable {preds : Array (List Nat)} {e final : Estimates} {d k p v : Nat}

end Numbers

namespace HeapGraph

variable {g : HeapGraph} {e : Estimates} {k u v : Nat}

end HeapGraph

end Retention
