import Mathlib.Tactic

/-! The events of `poll` and `epoll`, as masks, and the conversions of `syscalls/poll.cpp`
between them. -/

namespace DualFuse.Syscalls

def epollin : ℕ := 0x001
def epollpri : ℕ := 0x002
def epollout : ℕ := 0x004
def epollerr : ℕ := 0x008
def epollhup : ℕ := 0x010

def pollin : ℕ := 0x001
def pollpri : ℕ := 0x002
def pollout : ℕ := 0x004
def pollerr : ℕ := 0x008
def pollhup : ℕ := 0x010

/-- The mask with the bits of `event` if the condition holds. -/
def raise (condition : Bool) (event revents : ℕ) : ℕ := if condition then revents ||| event else revents

end DualFuse.Syscalls
