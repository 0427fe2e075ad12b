import JavaClass.Files.Archives

/-!
# Faults of archives

What can be wrong with an archive, with the message of each fault.
-/

namespace JavaClass.Archive

/-- What is wrong with an archive, or with the headers of one member. -/
inductive Fault where
  /-- The file is shorter than the record that ends every archive. -/
  | tooShort
  | noEndRecord
  | severalDisks
  /-- There is no room for the wide end record that a locator promises. -/
  | noRoomForWideEnd
  | noWideEnd
  | directoryBounds
  /-- No file reaches as far as the directory is said to start. -/
  | directoryStart
  | directoryHeader
  | headerStart
  | cipherLength
  | cipherVendor
  | cipherVersion
  | cipherStrength
  /-- An entry needs a cipher but does not name one. -/
  | noCipher
  | localHeader
  | encrypted
  | unsupportedMethod
  deriving DecidableEq, Repr

/-- The message of a fault in an archive. -/
def Fault.message : Fault → String
  | tooShort => "invalid Zip archive: Invalid zip header"
  | noEndRecord => "invalid Zip archive: Could not find central directory end"
  | severalDisks => "unsupported Zip archive: Support for multi-disk files is not implemented"
  | noRoomForWideEnd => "invalid Zip archive: File cannot contain ZIP64 central directory end"
  | noWideEnd => "invalid Zip archive: Could not find ZIP64 central directory end"
  | directoryBounds => "invalid Zip archive: Invalid central directory size or offset"
  | directoryStart => "invalid Zip archive: Could not seek to start of central directory"
  | directoryHeader => "invalid Zip archive: Invalid Central Directory header"
  | headerStart => "invalid Zip archive: Archive header is too large"
  | cipherLength =>
      "unsupported Zip archive: AES extra data field has an unsupported length"
  | cipherVendor => "invalid Zip archive: Invalid AES vendor"
  | cipherVersion => "invalid Zip archive: Invalid AES vendor version"
  | cipherStrength => "invalid Zip archive: Invalid AES encryption strength"
  | noCipher => "invalid Zip archive: AES encryption without AES extra data field"
  | localHeader => "invalid Zip archive: Invalid local file header"
  | encrypted => "unsupported Zip archive: Password required to decrypt file"
  | unsupportedMethod => "unsupported Zip archive: Compression method not supported"

/-- What a caller is told of a fault. -/
def Fault.error (fault : Fault) : ArchiveError := .other fault.message

end JavaClass.Archive
