import PackageHistory.Commit

/-!
# The format of a log

Of every commit git is asked for a begin marker, four lines of header, the message, an end marker
and the files it touched, one a line.
-/

namespace PackageHistory.Log

def beginMarker : Text := "# BEGIN COMMIT".toList
def messageEnd : Text := "# END MESSAGE BODY".toList

/-- Hash, date, author and committer as git names them. -/
def headerFields : List Text :=
  ["%h".toList, "%cd".toList, "%an <%ae>".toList, "%cn <%ce>".toList]

def template : Text :=
  Text.join "%n".toList ([beginMarker] ++ headerFields ++ ["%B".toList, messageEnd])

/-- The command for the log of a range, oldest commit first. -/
def args (range : Text) : List Text :=
  ["log".toList, "--name-status".toList, "--date=short".toList, "--diff-filter=ARMD".toList,
    "--reverse".toList, "--pretty=tformat:".toList ++ template, range]

/-! ## What git prints -/

/-- A commit and the files it touched: the message is followed by a blank line, and so is the end
marker. -/
def printCommit (c : Commit) (fileLines : List Text) : List Text :=
  beginMarker :: c.hash :: c.date :: c.author :: c.committer :: (c.message ++ [[]])
    ++ messageEnd :: [] :: fileLines

def print (commits : List (Commit × List Text)) : List Text :=
  commits.flatMap fun x => printCommit x.1 x.2

end PackageHistory.Log
