namespace FormalLanguages.Text

/-! Many names are one character and a run of marks after it. A text is cut into
chunks of that form; marks at its very beginning belong to no character. -/

structure Chunk where
  head : Char
  marks : List Char
deriving DecidableEq, Repr

structure Chunks where
  strayMarks : List Char
  chunks : List Chunk
deriving DecidableEq, Repr

def chunks (isMark : Char → Bool) : List Char → Chunks
  | [] => ⟨[], []⟩
  | head :: tail =>
      let ⟨marks, rest⟩ := chunks isMark tail
      if isMark head then ⟨head :: marks, rest⟩ else ⟨[], ⟨head, marks⟩ :: rest⟩

def Chunk.text (chunk : Chunk) : List Char := chunk.head :: chunk.marks

def Chunks.text (cut : Chunks) : List Char := cut.strayMarks ++ cut.chunks.flatMap Chunk.text

theorem text_chunks (isMark : Char → Bool) (text : List Char) :
    (chunks isMark text).text = text := by
  induction text with
  | nil => rfl
  | cons head tail induction =>
      simp only [chunks]
      split
      · exact congrArg (head :: ·) induction
      · exact congrArg (head :: ·) induction

end FormalLanguages.Text
