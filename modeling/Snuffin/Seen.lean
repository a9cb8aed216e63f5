import Snuffin.Progress
import Snuffin.Trails
/-!
# The game that a player sees

From the start of a game on, a run of the server is matched by a run of the
game of trails: a snake that is loaded joins, and a tick is a round. So the
pictures that a client draws are the games after the rounds, and its result
says whether its player is still in the last one.
-/
open Lib Snuffin.Game Snuffin.Client Snuffin.ComWrapper Snuffin.Marshalling

namespace Snuffin.ChildServer

variable {M : Type} {cd : Codec M}

/-! ## What a game of trails looks like -/

end Snuffin.ChildServer
