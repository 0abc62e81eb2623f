import Stencil.Token

/-!
Token streams: a list of tokens with a position in it.
-/

namespace Stencil

structure TokenStream where
  tokens : List Token
  pos : Nat
  pos_le : pos ≤ tokens.length

namespace TokenStream

def ofList (tokens : List Token) : TokenStream :=
  ⟨tokens, 0, Nat.zero_le _⟩

def remaining (s : TokenStream) : List Token :=
  s.tokens.drop s.pos

def peek? (s : TokenStream) : Option Token :=
  s.tokens[s.pos]?

/-- Moves to a position, or to the end if the position lies beyond it. -/
def seek (s : TokenStream) (n : Nat) : TokenStream :=
  ⟨s.tokens, min n s.tokens.length, Nat.min_le_right _ _⟩

def advance (s : TokenStream) : Option Token × TokenStream :=
  (s.peek?, s.seek (s.pos + 1))

/-- Moves to the position from where `n` tokens remain. -/
def seekLast (s : TokenStream) (n : Nat) : TokenStream :=
  s.seek (s.tokens.length - n)

def atEnd (s : TokenStream) : Bool :=
  s.tokens.length ≤ s.pos

def nextDisplay (s : TokenStream) : String :=
  Token.nextDisplay s.remaining

@[simp] theorem remaining_ofList (ts : List Token) : (ofList ts).remaining = ts := rfl

@[simp] theorem tokens_seek (s : TokenStream) (n : Nat) : (s.seek n).tokens = s.tokens := rfl

@[simp] theorem pos_seek (s : TokenStream) (n : Nat) :
    (s.seek n).pos = min n s.tokens.length := rfl

theorem length_remaining (s : TokenStream) :
    s.remaining.length = s.tokens.length - s.pos := by
  simp [remaining]

theorem atEnd_iff (s : TokenStream) : s.atEnd = true ↔ s.remaining = [] := by
  simp [atEnd, remaining]

theorem peek?_eq_head? (s : TokenStream) : s.peek? = s.remaining.head? := by
  simp [peek?, remaining]

theorem seek_pos (s : TokenStream) : s.seek s.pos = s := by
  rw [seek]
  congr 1
  exact Nat.min_eq_left s.pos_le

theorem remaining_seek (s : TokenStream) (n : Nat) : (s.seek n).remaining = s.tokens.drop n := by
  rw [remaining, tokens_seek, pos_seek, ← List.drop_eq_drop_min]

theorem seekLast_eq_seek (s : TokenStream) {rest : List Token} (h : rest <:+ s.remaining) :
    s.seekLast rest.length = s.seek (s.pos + (s.remaining.length - rest.length)) := by
  have hle := h.length_le
  have hpos := s.pos_le
  rw [s.length_remaining] at hle ⊢
  rw [seekLast]
  congr 1
  omega

theorem seekLast_remaining (s : TokenStream) : s.seekLast s.remaining.length = s := by
  rw [s.seekLast_eq_seek (List.suffix_refl _), Nat.sub_self, Nat.add_zero, s.seek_pos]

theorem remaining_seekLast (s : TokenStream) {rest : List Token} (h : rest <:+ s.remaining) :
    (s.seekLast rest.length).remaining = rest := by
  rw [s.seekLast_eq_seek h, remaining_seek, ← List.drop_drop]
  change s.remaining.drop (s.remaining.length - rest.length) = rest
  obtain ⟨front, hfront⟩ := h
  rw [← hfront, List.length_append, Nat.add_sub_cancel, List.drop_left]

end TokenStream

end Stencil
