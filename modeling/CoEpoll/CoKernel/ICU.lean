import Mathlib.Tactic.TypeStar

/-!
# `ICU::loop`: its phases

Each pass of the loop runs the functions queued in {lit}`funcs_`, walks {lit}`list_`, clears it
and fills it again from {lit}`epoll_wait`.
-/

namespace CoEpoll
namespace ICU

/-- Where a pass of {lit}`ICU::loop` is; {lit}`rest` is what the walk has still ahead. -/
inductive Phase (ε : Type*) where
  /-- {lit}`while (funcs_.dequeue(func)) func();` -/
  | drain
  /-- {lit}`for (auto i : list_)`, followed by {lit}`list_.clear()`. -/
  | walk (rest : List ε)
  /-- Inside {lit}`epoll_wait`. -/
  | poll
deriving DecidableEq

end ICU
end CoEpoll
