/-! What is wrong with the options of a compilation. -/

namespace ClassGen

/-- Why a manifest could not be read as text. -/
inductive ReadFailure where
  | notFound
  | isDirectory
  | notUtf8
  deriving DecidableEq

def ReadFailure.message : ReadFailure → String
  | notFound => "No such file or directory (os error 2)"
  | isDirectory => "Is a directory (os error 21)"
  | notUtf8 => "stream did not contain valid UTF-8"

inductive OptionsError where
  | read (path : String) (cause : ReadFailure)
  /-- Not a manifest; what exactly is wrong is not said. -/
  | parse (path : String)
  | unsupportedVersion (version : UInt16)
  deriving DecidableEq

def OptionsError.message : OptionsError → String
  | read path cause => "failed to read " ++ path ++ ": " ++ cause.message
  | parse path => "failed to parse " ++ path ++ ": "
  | unsupportedVersion version =>
    "class file version " ++ toString version.toNat ++ " is not supported (expected 45 to 50)"

end ClassGen
