namespace ComponentCompiler.Text

def byteLength : List Char → Nat
  | [] => 0
  | c :: cs => c.utf8Size + byteLength cs

def byteSize (text : String) : Nat :=
  byteLength text.toList

/-- What follows the first `n` bytes; nothing when byte `n` is no character boundary. -/
def dropBytes : Nat → List Char → Option (List Char)
  | 0, cs => some cs
  | _ + 1, [] => none
  | n + 1, c :: cs => if c.utf8Size ≤ n + 1 then dropBytes (n + 1 - c.utf8Size) cs else none

def takeBytes : Nat → List Char → Option (List Char)
  | 0, _ => some []
  | _ + 1, [] => none
  | n + 1, c :: cs =>
    if c.utf8Size ≤ n + 1 then (takeBytes (n + 1 - c.utf8Size) cs).map (c :: ·) else none

/-- The text between two byte offsets, both clamped to the text and the second to the first.
A cut inside a character leaves nothing. -/
def sliceBytes (start stop : Nat) (text : String) : String :=
  let cs := text.toList
  let size := byteLength cs
  let first := min start size
  let last := max (min stop size) first
  match (dropBytes first cs).bind (takeBytes (last - first)) with
  | some part => String.ofList part
  | none => ""

theorem byteLength_append (cs ds : List Char) :
    byteLength (cs ++ ds) = byteLength cs + byteLength ds := by
  induction cs with
  | nil => simp [byteLength]
  | cons c cs ih => simp [byteLength, ih, Nat.add_assoc]

theorem dropBytes_append (cs ds : List Char) : dropBytes (byteLength cs) (cs ++ ds) = some ds := by
  induction cs with
  | nil => simp [byteLength, dropBytes]
  | cons c cs ih =>
    have hc := Char.utf8Size_pos c
    obtain ⟨k, hk⟩ : ∃ k, c.utf8Size + byteLength cs = k + 1 := ⟨_, (Nat.succ_pred (by omega)).symm⟩
    simp only [byteLength, List.cons_append, hk, dropBytes]
    rw [if_pos (by omega), show k + 1 - c.utf8Size = byteLength cs by omega, ih]

theorem takeBytes_append (cs ds : List Char) :
    takeBytes (byteLength cs) (cs ++ ds) = some cs := by
  induction cs with
  | nil => simp [byteLength, takeBytes]
  | cons c cs ih =>
    have hc := Char.utf8Size_pos c
    obtain ⟨k, hk⟩ : ∃ k, c.utf8Size + byteLength cs = k + 1 := ⟨_, (Nat.succ_pred (by omega)).symm⟩
    simp only [byteLength, List.cons_append, hk, takeBytes]
    rw [if_pos (by omega), show k + 1 - c.utf8Size = byteLength cs by omega, ih]
    rfl

end ComponentCompiler.Text
