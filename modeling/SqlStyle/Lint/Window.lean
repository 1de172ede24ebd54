import SqlStyle.Token

/-! Windows: a token of a line together with the tokens on either side of it. -/
namespace SqlStyle
set_option autoImplicit false

/-- A token, the tokens before it from the nearest one on, and the tokens after it. -/
structure Window where
  before : List Token
  token : Token
  after : List Token

namespace Window

def index (w : Window) : Nat :=
  w.before.length

/-- The windows on the tokens `ts`, which follow the tokens `before`. -/
def along (before : List Token) : List Token → List Window
  | [] => []
  | t :: ts => ⟨before, t, ts⟩ :: along (t :: before) ts

end Window

def windows (ts : List Token) : List Window :=
  Window.along [] ts

theorem Window.mem_along (before ts : List Token) (w : Window) :
    w ∈ along before ts ↔ ∃ mid, w.before = mid.reverse ++ before ∧ ts = mid ++ w.token :: w.after := by
  induction ts generalizing before with
  | nil => simp [along]
  | cons t ts ih =>
    rw [along, List.mem_cons, ih]
    constructor
    · rintro (rfl | ⟨mid, hbefore, rfl⟩)
      · exact ⟨[], rfl, rfl⟩
      · exact ⟨t :: mid, by simp [hbefore], rfl⟩
    · rintro ⟨mid, hbefore, hts⟩
      obtain ⟨b, token, after⟩ := w
      cases mid with
      | nil =>
        obtain ⟨rfl, rfl⟩ := List.cons.inj hts
        exact .inl (by simpa using hbefore)
      | cons u mid =>
        obtain ⟨rfl, rfl⟩ := List.cons.inj hts
        exact .inr ⟨mid, by simpa using hbefore, rfl⟩

/-- A window on a list is a way to cut the list at one of its tokens. -/
theorem mem_windows (ts : List Token) (w : Window) :
    w ∈ windows ts ↔ ts = w.before.reverse ++ w.token :: w.after := by
  rw [windows, Window.mem_along]
  constructor
  · rintro ⟨mid, hbefore, hts⟩
    rw [hbefore, List.append_nil, List.reverse_reverse, hts]
  · intro hts
    exact ⟨w.before.reverse, by simp, hts⟩

theorem Window.token_mem {ts : List Token} {w : Window} (h : w ∈ windows ts) : w.token ∈ ts := by
  rw [(mem_windows ts w).1 h]
  exact List.mem_append_right _ List.mem_cons_self

end SqlStyle
