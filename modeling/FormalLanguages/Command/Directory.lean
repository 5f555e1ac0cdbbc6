import FormalLanguages.Collection.DeclaredMap

namespace FormalLanguages

/-! The files that a command can read, by the names that it gives them. -/

structure Directory where
  contents : DeclaredMap String String

namespace Directory

/-- Of two files of one name the later one counts. -/
def ofFiles (files : List (String × String)) : Directory := ⟨.ofList files⟩

def read? (directory : Directory) (name : String) : Option String := directory.contents.get? name

end Directory

end FormalLanguages
