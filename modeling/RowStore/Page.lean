import RowStore.Bytes.Basic

/-!
# Pages

A file is a sequence of pages of 4096 bytes. The first page of the file is its
header; the pages after it are numbered from zero, so the page with number `id`
stands at offset `(id + 1) * 4096`.
-/

set_option autoImplicit false

namespace RowStore

/-- The number of a page, counted from the page after the header. -/
abbrev PageNumber := UInt32

/-- The key of a stored value. -/
abbrev Key := Int32

/-- A page is a string of 4096 bytes. -/
structure Page where
  bytes : Bytes
  length_bytes : bytes.length = 4096
  deriving DecidableEq

namespace Page

/-- The number of bytes in a page. -/
def size : Nat := 4096

/-- What a leaf with a single cell takes of a page beside the value of the cell. -/
def singleCellFixedSize : Nat := 22

/-- The page that starts with the given bytes, cut to the size of a page or filled up with zeros. -/
def ofBytes (bytes : Bytes) : Page where
  bytes := Bytes.padTo size (bytes.take size)
  length_bytes := by
    rw [Bytes.length_padTo, List.length_take, size]
    omega

/-- The page of zeros. -/
def blank : Page := ofBytes []

/-- The first `count` pages of a file. -/
def firstOf : Nat → Bytes → List Page
  | 0, _ => []
  | count + 1, contents => ofBytes (contents.take size) :: firstOf count (contents.drop size)

/-- The pages of a file, the last one filled up with zeros if it is short. -/
def allOf (contents : Bytes) : List Page :=
  firstOf ((contents.length + (size - 1)) / size) contents

/-- Where the page with the given number starts in the file. -/
def offset (id : PageNumber) : Nat := (id.toNat + 1) * size

/-- A page made of 4096 bytes is those bytes. -/
theorem bytes_ofBytes (bytes : Bytes) (whole : bytes.length = size) :
    (ofBytes bytes).bytes = bytes := by
  simp [ofBytes, Bytes.padTo, ← whole]

/-- A string that fits a page is the front of its page, and zeros are the rest. -/
theorem bytes_ofBytes_of_le (bytes : Bytes) (fits : bytes.length ≤ size) :
    (ofBytes bytes).bytes = bytes ++ List.replicate (size - bytes.length) 0 := by
  simp [ofBytes, Bytes.padTo, List.take_of_length_le fits]

/-- As many pages are taken as asked for. -/
theorem length_firstOf (count : Nat) (contents : Bytes) :
    (firstOf count contents).length = count := by
  induction count generalizing contents with
  | zero => rfl
  | succ count ih => simp [firstOf, ih]

end Page

/-- The length of the longest value, which has to fit a leaf as its only value. It is also the
length of the longest row. -/
def maxValueLength : Nat := Page.size - Page.singleCellFixedSize

end RowStore
